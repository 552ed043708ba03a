/-
Parsing by the rules of a table. One token of lookahead decides everything: `canBegin` asks whether a rule can begin
with the next token and takes none, `parseRule` parses a rule and takes exactly the tokens it covers. There is no way
back from a choice.

Rules nest at most `maxNesting` deep. Repetitions and operator chains count what they read against `budget`, a bound on
the tokens and lines of the stream: a repetition that outlasts it reads nothing and would go on for ever.

What the elements of a rule do is written for any machine `m` that can take the steps of parsing, and `parseRule` is the
plain one. Others may do more at each rule, such as counting.
-/
import Stone.Grammar.Error
import Stone.Grammar.Rule
import Stone.Stop
import Stone.Token.Stream

namespace Stone

/-- parsing actions: the stream is what it is also after an error -/
abbrev Parsing := EStateM (Stop ParseError) TokenStream

namespace Parsing

/-- a stream operation as a parsing action -/
def ofStream (f : TokenStream → Except ScanError Token × TokenStream) : Parsing Token := fun s =>
  match f s with
  | (.ok t, s') => .ok t s'
  | (.error e, s') => .error (.raised (.scan e)) s'

/-- takes the next token -/
def read : Parsing Token := ofStream TokenStream.read

/-- the next token, not taken -/
def peek : Parsing Token := ofStream (TokenStream.peek 0)

def fail {α : Type} (e : ParseError) : Parsing α := throw (.raised e)

/-- parsing is a machine itself, and takes its own steps as they are -/
@[simp] theorem lift_self {α : Type} (p : Parsing α) : (liftM p : Parsing α) = p := rfl

end Parsing

/-- the deepest nesting of rules -/
def maxNesting : Nat := 1500

namespace Grammar

open Parsing

/-! ## Lookahead -/

/-- the first of these rules that `begins` accepts -/
def firstMatch (begins : RuleId → Parsing Bool) : List RuleId → Parsing (Option RuleId)
  | [] => pure none
  | id :: more => do
    if ← begins id then pure (some id) else firstMatch begins more

/-- can the element begin with the next token, where `begins` answers for rules -/
def elementCanBegin (begins : RuleId → Parsing Bool) : Element → Parsing Bool
  | .rule id | .optional id | .many id | .operators id _ _ => begins id
  | .choice alternatives => do return (← firstMatch begins alternatives).isSome
  | .token cls _ => do return cls.accepts (← peek)
  | .literal texts _ => do
    let t ← peek
    return texts.any t.isLiteral

/-- looks through at most `steps` rules for the first element that reads a token -/
def canBeginWithin (g : Grammar) : Nat → RuleId → Parsing Bool
  | 0, _ => throw .endless
  | steps + 1, id =>
    match (g.rule id).elements with
    | [] => pure true
    | first :: _ => elementCanBegin (canBeginWithin g steps) first

/-- can the rule begin with the next token. A rule without elements always can. A search through more rules than there
are has come back to a rule that it is still asking about. -/
def canBegin (g : Grammar) (id : RuleId) : Parsing Bool := canBeginWithin g (g.rules.size + 1) id

/-! ## Repetition and operators -/

variable {m : Type → Type} [Monad m] [MonadLiftT Parsing m]

/-- trees of the rule for as long as it can begin; vacuous ones are left out -/
def parseMany (begins : Parsing Bool) (parse : m Node) : Nat → m (List Node)
  | 0 => (throw .endless : Parsing (List Node))
  | budget + 1 => do
    if ← begins then
      let n ← parse
      let more ← parseMany begins parse budget
      return if n.isVacuous then more else n :: more
    else return []

/-- the precedence of the next token, if it is an operator of the table -/
def nextOperator (table : OperatorTable) : Parsing (Option Precedence) := do
  match (← peek).lexeme with
  | .identifier text => return table.get? text
  | _ => return none

/-- does the operator that waits for its right side, if any, leave its operand to the next one -/
def yields (waiting : Option Precedence) (next : Precedence) : Bool :=
  match waiting with
  | none => true
  | some p => p.yieldsTo next

/-- extends `left` by all operators that the waiting one yields to -/
def climb (table : OperatorTable) (kind : ListKind) (operand : m Node) : Nat → Option Precedence → Node → m Node
  | 0, _, _ => (throw .endless : Parsing Node)
  | budget + 1, waiting, left => do
    match ← nextOperator table with
    | none => return left
    | some p =>
      if yields waiting p then
        let op ← read
        let first ← operand
        let right ← climb table kind operand budget (some p) first
        climb table kind operand budget waiting (kind.build [left, .leaf .mark op, right])
      else return left

/-! ## Rules -/

/-- the trees that an element gives, where `parse` parses rules -/
def parseElement (g : Grammar) (budget : Nat) (parse : RuleId → m Node) : Element → m (List Node)
  | .rule id => return [← parse id]
  | .choice alternatives => do
    match ← firstMatch g.canBegin alternatives with
    | some id => return [← parse id]
    | none => (do fail (.unexpected (← peek) none) : Parsing (List Node))
  | .optional id => do
    if ← g.canBegin id then
      let n ← parse id
      return if n.isVacuous then [] else [n]
    else return []
  | .many id => parseMany (g.canBegin id) (parse id) budget
  | .token cls kind => do
    let t ← read
    if cls.accepts t then return [.leaf kind t] else (fail (.unexpected t none) : Parsing (List Node))
  | .literal texts keep => do
    let t ← read
    if texts.any t.isLiteral then return if keep then [.leaf .mark t] else []
    else (fail (.unexpected t texts.head?) : Parsing (List Node))
  | .operators id table kind => do
    let first ← parse id
    return [← climb table kind (parse id) budget none first]

/-- the trees that a sequence of elements gives -/
def parseElements (g : Grammar) (budget : Nat) (parse : RuleId → m Node) : List Element → m (List Node)
  | [] => return []
  | e :: more => do
    let first ← parseElement g budget parse e
    let others ← parseElements g budget parse more
    return first ++ others

/-- the tree of a rule, where `parse` parses the rules inside it -/
def parseInside (g : Grammar) (budget : Nat) (parse : RuleId → m Node) (id : RuleId) : m Node := do
  let r := g.rule id
  return r.build.make (← parseElements g budget parse r.elements)

/-- parses a rule with `nesting` levels of rules left -/
def parseRule (g : Grammar) (budget : Nat) : Nat → RuleId → Parsing Node
  | 0, _ => do fail (.tooDeep (← peek).line)
  | nesting + 1, id => parseInside g budget (parseRule g budget nesting) id

/-- parses a rule from a stream -/
def parse (g : Grammar) (id : RuleId) : Parsing Node := do
  parseRule g ((← get).size + 1) maxNesting id

end Grammar

end Stone
