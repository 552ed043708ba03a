/-
Evaluation of trees. Every statement has a value: a block that of its last statement, a conditional that of the branch
taken, a loop that of its last round, a definition the name it bound; where there is none of these the value is zero. A
call evaluates its arguments in the scope of the caller and its body in a new scope inside that of the function.

Evaluations nest at most `maxEvaluation` deep, so only loops can run without end. A loop makes at most `rounds` rounds;
a program that needs more is taken to be endless.

What the forms of trees do is written for any machine `m` that can take the steps of evaluation, and `evaluate` is the
plain one. Others may do more at each tree, such as counting.
-/
import Stone.Decimal.Scientific
import Stone.EvalError
import Stone.Heap
import Stone.Stop
import Stone.Text.Class

namespace Stone

/-- evaluating actions: the heap keeps what was done before an error -/
abbrev Evaluation := EStateM (Stop EvalError) Heap

/-- the deepest nesting of evaluations -/
def maxEvaluation : Nat := 3000

namespace Evaluation

def fail {α : Type} (e : EvalError) : Evaluation α := throw (.raised e)

/-- a part of a tree that has to be there -/
def need {α : Type} (n : Node) : Option α → Evaluation α
  | some a => pure a
  | none => fail (.noValue n)

/-- binds a name in a scope -/
def bindIn (s : ScopeId) (name : String) (value : Value) : Evaluation Unit := modify fun h => h.putNew s name value

/-- makes a function in a scope -/
def newFunction (name : Option String) (params body : Node) (s : ScopeId) : Evaluation Value :=
  modifyGet fun h =>
    (.function ⟨h.functionCount, name, params, body, s⟩, { h with functionCount := h.functionCount + 1 })

/-- evaluation is a machine itself, and takes its own steps as they are -/
@[simp] theorem lift_self {α : Type} (p : Evaluation α) : (liftM p : Evaluation α) = p := rfl

end Evaluation

open Evaluation

/-! ## Operators on values -/

/-- equality across types: a number is equal to each text that spells it -/
def looselyEqual : Value → Value → Bool
  | .number d, .string s | .string s, .number d =>
    match Decimal.readChars? (Text.trimBlanks s.toList) with
    | some e => e.eq d
    | none => false
  | a, b => a.same b

/-- the result of a number operation, which may have left the range -/
def inRange (line : Option Nat) : Option Decimal → Except EvalError Value
  | some d => .ok (.number d)
  | none => .error (.overflow line)

/-- an operator on two numbers -/
def applyToNumbers (op : Operator) (a b : Decimal) (line : Option Nat) : Except EvalError Value :=
  match op with
  | .add => inRange line (a.add b)
  | .subtract => inRange line (a.sub b)
  | .multiply => inRange line (a.mul b)
  | .divide => if b.isZero then .error (.divisionByZero line) else inRange line (a.div b)
  | .modulo => if b.isZero then .error (.divisionByZero line) else inRange line (a.rem b)
  | .equal => .ok (.ofBool (a.eq b))
  | .notEqual => .ok (.ofBool (!a.eq b))
  | .less => .ok (.ofBool (a.lt b))
  | .greater => .ok (.ofBool (b.lt a))
  | .lessEqual => .ok (.ofBool (a.le b))
  | .greaterEqual => .ok (.ofBool (b.le a))
  | .assign => .error (.badAssignment line)

/-- an operator on two values. Sums with anything but two numbers join texts, equality takes all values, and every other
operator wants numbers. -/
def applyOperator (op : Operator) (a b : Value) (line : Option Nat) : Except EvalError Value :=
  match op, a, b with
  | .equal, a, b => .ok (.ofBool (looselyEqual a b))
  | op, .number x, .number y => applyToNumbers op x y line
  | .add, a, b => .ok (.string (a.display ++ b.display))
  | op, a, b => .error (.badType op.symbol s!"{a.typeName} and {b.typeName}" line)

/-! ## Trees -/

/-- the value of a leaf -/
def evalLeaf (kind : LeafKind) (t : Token) (s : ScopeId) : Evaluation Value :=
  match kind with
  | .number =>
    match t.lexeme with
    | .number d => pure (.number d)
    | _ => fail (.noValue (.leaf kind t))
  | .string => pure (.string t.text)
  | .name => do
    match (← get).get? s t.text with
    | some v => pure v
    | none => fail (.undefinedName t.text (some t.line))
  | .mark => fail (.noValue (.leaf kind t))

theorem run_evalLeaf_name (t : Token) (s : ScopeId) (h : Heap) :
    (evalLeaf .name t s).run h =
      (match h.get? s t.text with
        | some v => (pure v : Evaluation Value)
        | none => fail (.undefinedName t.text (some t.line))).run h := rfl

def evalDefinition (n : Node) (s : ScopeId) : Evaluation Value := do
  let name ← need n ((n.child? 0).bind Node.token?)
  let params ← need n (n.child? 1)
  let body ← need n (n.child? 2)
  bindIn s name.text (← newFunction (some name.text) params body s)
  return .string name.text

def evalClosure (n : Node) (s : ScopeId) : Evaluation Value := do
  newFunction none (← need n (n.child? 0)) (← need n (n.child? 1)) s

variable {m : Type → Type} [Monad m] [MonadLiftT Evaluation m]

/-- assignments and operators -/
def evalBinary (eval : Node → ScopeId → m Value) (n : Node) (s : ScopeId) : m Value := do
  let left ← need n (n.child? 0)
  let symbol ← need n ((n.child? 1).bind Node.token?)
  let right ← need n (n.child? 2)
  match Operator.ofSymbol? symbol.text with
  | none => (fail (.badOperator symbol.text n.line?) : Evaluation Value)
  | some .assign =>
    match left.name? with
    | none => (fail (.badAssignment n.line?) : Evaluation Value)
    | some name =>
      let v ← eval right s
      (modify fun h => h.put s name v : Evaluation Unit)
      return v
  | some op =>
    let a ← eval left s
    let b ← eval right s
    match applyOperator op a b n.line? with
    | .ok v => return v
    | .error e => (fail e : Evaluation Value)

def evalNegative (eval : Node → ScopeId → m Value) (n : Node) (s : ScopeId) : m Value := do
  match ← eval (← need n (n.child? 0)) s with
  | .number d => return .number d.neg
  | v => (fail (.badType "-" v.typeName n.line?) : Evaluation Value)

/-- evaluates arguments in the scope of the caller and binds them in a new scope, one after the other -/
def bindArguments (eval : Node → ScopeId → m Value) (caller inner : ScopeId) : List (String × Node) → m Unit
  | [] => return ()
  | (param, argument) :: more => do
    let v ← eval argument caller
    bindIn inner param v
    bindArguments eval caller inner more

/-- the call of a value -/
def call (eval : Node → ScopeId → m Value) (callee : Value) (arguments : List Node) (caller : ScopeId)
    (line : Option Nat) : m Value :=
  match callee with
  | .function f =>
    if arguments.length ≠ f.arity then (fail (.arity f.arity arguments.length line) : Evaluation Value)
    else do
      let inner ← (modifyGet (Heap.newScope (some f.scope)) : Evaluation ScopeId)
      bindArguments eval caller inner (f.paramNames.zip arguments)
      eval f.body inner
  | v => (fail (.notAFunction v.typeName line) : Evaluation Value)

/-- calls a value with each list of arguments in turn, each time on what the call before gave -/
def evalCalls (eval : Node → ScopeId → m Value) (s : ScopeId) (line : Option Nat) : Value → List Node → m Value
  | v, [] => return v
  | v, .list .arguments arguments :: more => do
    evalCalls eval s line (← call eval v arguments s line) more
  | _, n :: _ => (fail (.noValue n) : Evaluation Value)

/-- the value of the last statement; empty ones do not count -/
def evalStatements (eval : Node → ScopeId → m Value) (s : ScopeId) : Value → List Node → m Value
  | v, [] => return v
  | v, n :: more => if n.is .empty then evalStatements eval s v more else do evalStatements eval s (← eval n s) more

def evalConditional (eval : Node → ScopeId → m Value) (n : Node) (s : ScopeId) : m Value := do
  let condition ← eval (← need n (n.child? 0)) s
  if condition.isTruthy then eval (← need n (n.child? 1)) s
  else
    match n.child? 2 with
    | some other => eval other s
    | none => return .zero

/-- rounds of a loop as long as its condition holds; `v` is the value of the round before -/
def evalRounds (eval : Node → ScopeId → m Value) (condition body : Node) (s : ScopeId) : Nat → Value → m Value
  | 0, _ => (throw .endless : Evaluation Value)
  | rounds + 1, v => do
    if (← eval condition s).isTruthy then evalRounds eval condition body s rounds (← eval body s)
    else return v

def evalLoop (rounds : Nat) (eval : Node → ScopeId → m Value) (n : Node) (s : ScopeId) : m Value := do
  let condition ← need n (n.child? 0)
  let body ← need n (n.child? 1)
  evalRounds eval condition body s rounds .zero

/-- the value of a tree, where `eval` evaluates its parts -/
def evalNode (rounds : Nat) (eval : Node → ScopeId → m Value) (n : Node) (s : ScopeId) : m Value :=
  match n with
  | .leaf kind t => evalLeaf kind t s
  | .list .binary _ => evalBinary eval n s
  | .list .negative _ => evalNegative eval n s
  | .list .primary [] => (fail (.noValue n) : Evaluation Value)
  | .list .primary (operand :: calls) => do evalCalls eval s n.line? (← eval operand s) calls
  | .list .block statements => evalStatements eval s .zero statements
  | .list .conditional _ => evalConditional eval n s
  | .list .loop _ => evalLoop rounds eval n s
  | .list .empty _ => return .unit
  | .list .definition _ => evalDefinition n s
  | .list .closure _ => evalClosure n s
  | .list .plain _ => (fail (.noValue n) : Evaluation Value)
  | .list .parameters _ => (fail (.noValue n) : Evaluation Value)
  | .list .arguments _ => (fail (.noValue n) : Evaluation Value)

/-- evaluates a tree in a scope, with `depth` levels of evaluations left -/
def evaluate (rounds : Nat) : Nat → Node → ScopeId → Evaluation Value
  | 0, n, _ => fail (.tooDeep n.line?)
  | depth + 1, n, s => evalNode rounds (evaluate rounds depth) n s

end Stone
