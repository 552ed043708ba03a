/-
The binary operators that evaluation knows. The grammar keeps operators as marks; `ofSymbol?` gives a mark its meaning.
-/

namespace Stone

inductive Operator where
  | assign
  | equal
  | notEqual
  | less
  | greater
  | lessEqual
  | greaterEqual
  | add
  | subtract
  | multiply
  | divide
  | modulo
deriving DecidableEq

namespace Operator

def symbol : Operator → String
  | assign => "="
  | equal => "=="
  | notEqual => "!="
  | less => "<"
  | greater => ">"
  | lessEqual => "<="
  | greaterEqual => ">="
  | add => "+"
  | subtract => "-"
  | multiply => "*"
  | divide => "/"
  | modulo => "%"

def all : List Operator :=
  [assign, equal, notEqual, less, greater, lessEqual, greaterEqual, add, subtract, multiply, divide, modulo]

/-- the operator with this symbol -/
def ofSymbol? (symbol : String) : Option Operator := all.find? fun op => op.symbol == symbol

end Operator

end Stone
