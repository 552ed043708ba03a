/-
Grammars as tables of rules. A rule is a sequence of elements and a way to build one tree from what they gave. Rules
refer to each other by their place in the table, so a rule may be used before it is complete and may use itself, and a
change of a rule is seen wherever it is used.

The operations that build a table are state actions on it. `insertChoice` gives a finished rule a further alternative
that is tried before what it had.
-/
import Stone.Grammar.Precedence
import Stone.Node.Basic

namespace Stone

/-- how a rule makes one tree of its children -/
inductive Build where
  /-- a single child stands for itself, anything else is a plain list -/
  | collapse
  | node (kind : ListKind)
deriving DecidableEq

def Build.make (b : Build) (children : List Node) : Node :=
  match b, children with
  | .node kind, children => kind.build children
  | .collapse, [only] => only
  | .collapse, children => .list .plain children

/-- a class of tokens that become leaves -/
inductive TokenClass where
  | number
  | string
  /-- identifiers other than the reserved ones -/
  | identifier (reserved : List String)
deriving DecidableEq

def TokenClass.accepts (c : TokenClass) (t : Token) : Bool :=
  match c, t.lexeme with
  | .number, .number _ => true
  | .string, .string _ => true
  | .identifier reserved, .identifier text => !reserved.contains text
  | _, _ => false

/-- the place of a rule in its table -/
abbrev RuleId := Nat

/-- one step of a rule -/
inductive Element where
  | rule (id : RuleId)
  /-- the first alternative that can begin with the next token -/
  | choice (alternatives : List RuleId)
  /-- the rule once, if it can begin with the next token -/
  | optional (id : RuleId)
  /-- the rule as often as it can begin with the next token -/
  | many (id : RuleId)
  | token (cls : TokenClass) (kind : LeafKind)
  /-- one of these literals, as a mark or left out -/
  | literal (texts : List String) (keep : Bool)
  /-- operands with operators of a table between them, nested by precedence -/
  | operators (operand : RuleId) (table : OperatorTable) (kind : ListKind)
deriving DecidableEq

structure Rule where
  name : Option String := none
  elements : List Element := []
  build : Build := .collapse
deriving DecidableEq

namespace Rule

/-- an empty collapsing rule with a name -/
def named (name : String) : Rule := { name := some name }

/-- an empty rule that builds trees of a kind -/
def ofKind (kind : ListKind) : Rule := { build := .node kind }

/-- the name of the rule, or else what it builds -/
def label (r : Rule) : String :=
  match r.name, r.build with
  | some name, _ => name
  | none, .node kind => kind.label
  | none, .collapse => "<rule>"

end Rule

structure Grammar where
  rules : Array Rule
deriving DecidableEq

namespace Grammar

def empty : Grammar := ⟨#[]⟩

/-- the rule at this place; places outside the table hold the empty rule -/
def rule (g : Grammar) (id : RuleId) : Rule := g.rules[id]?.getD {}

/-! ## Building -/

/-- a new rule -/
def add (r : Rule) : StateM Grammar RuleId := modifyGet fun g => (g.rules.size, ⟨g.rules.push r⟩)

/-- a change of a rule -/
def update (id : RuleId) (f : Rule → Rule) : StateM Grammar Unit := modify fun g => ⟨g.rules.modify id f⟩

/-- further elements at the end of a rule -/
def extend (id : RuleId) (elements : List Element) : StateM Grammar Unit :=
  update id fun r => { r with elements := r.elements ++ elements }

/-- the element for a rule or, where it cannot begin, the empty tree that it would build -/
def orEmpty (id : RuleId) : StateM Grammar Element := do
  let r := (← get).rule id
  let nothing ← add { build := r.build }
  return .choice [id, nothing]

/-- puts an alternative before all that a rule had. A choice at the front of the rule takes it in; any other rule
becomes a choice between the new alternative and what it was. -/
def insertChoice (id alternative : RuleId) : StateM Grammar Unit := do
  let r := (← get).rule id
  match r.elements with
  | .choice alternatives :: more =>
    update id fun _ => { r with elements := .choice (alternative :: alternatives) :: more }
  | _ =>
    let previous ← add r
    update id fun _ => { name := r.name, elements := [.choice [alternative, previous]] }

/-- takes all elements from a rule and lets it collapse -/
def reset (id : RuleId) : StateM Grammar Unit := update id fun r => { name := r.name }

end Grammar

end Stone
