/-
How tightly binary operators bind. `yieldsTo` decides between two operators that stand on both sides of an operand.
-/

namespace Stone

inductive Associativity where
  | left
  | right
deriving DecidableEq

/-- a binding strength: higher levels bind tighter -/
structure Precedence where
  level : Nat
  associativity : Associativity
deriving DecidableEq

/-- does an operator of precedence `next` take the operand between it and an operator of precedence `p` before it -/
def Precedence.yieldsTo (p next : Precedence) : Bool :=
  p.level < next.level || (next.level == p.level && p.associativity == .right)

/-- binary operators by their text -/
structure OperatorTable where
  entries : List (String × Precedence)
deriving DecidableEq

namespace OperatorTable

def empty : OperatorTable := ⟨[]⟩

/-- gives an operator a precedence, in place of the one it had -/
def insert (t : OperatorTable) (op : String) (p : Precedence) : OperatorTable := ⟨(op, p) :: t.entries⟩

def get? (t : OperatorTable) (op : String) : Option Precedence := t.entries.lookup op

def contains (t : OperatorTable) (op : String) : Bool := (t.get? op).isSome

/-- the operators of the language, loosest first: assignment to the right, comparison, sum and product to the left -/
def standard : OperatorTable :=
  let row (level : Nat) (side : Associativity) (ops : List String) (t : OperatorTable) : OperatorTable :=
    ops.foldl (fun t op => t.insert op ⟨level, side⟩) t
  row 4 .left ["*", "/", "%"] (row 3 .left ["+", "-"]
    (row 2 .left ["==", "!=", "<", "<=", ">", ">="] (row 1 .right ["="] empty)))

end OperatorTable

end Stone
