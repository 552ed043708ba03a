/-
Trees. A leaf keeps its token, a list has a kind and children. The kind says what the children mean; nothing here makes
sure that they are as the kind expects, so every function on trees also answers for malformed ones.
-/
import Stone.Text.Quoted
import Stone.Token.Basic

namespace Stone

/-- what a leaf stands for -/
inductive LeafKind where
  /-- a token kept for its text: an operator or the name after `def` -/
  | mark
  | number
  | string
  /-- a variable or a parameter -/
  | name
deriving DecidableEq

/-- what a list stands for -/
inductive ListKind where
  /-- no meaning of its own -/
  | plain
  /-- an operand and the arguments of the calls made on it -/
  | primary
  | negative
  /-- left side, operator mark, right side -/
  | binary
  | block
  /-- condition, block and perhaps a block for the other case -/
  | conditional
  /-- condition and block -/
  | loop
  /-- the empty statement -/
  | empty
  | parameters
  /-- name, parameters, block -/
  | definition
  | arguments
  /-- parameters and block -/
  | closure
deriving DecidableEq

namespace LeafKind

def label : LeafKind → String
  | mark => "Leaf"
  | number => "NumberLiteral"
  | string => "StringLiteral"
  | name => "Name"

end LeafKind

namespace ListKind

def label : ListKind → String
  | plain => "List"
  | primary => "PrimaryExpr"
  | negative => "NegativeExpr"
  | binary => "BinaryExpr"
  | block => "BlockStmnt"
  | conditional => "IfStmnt"
  | loop => "WhileStmnt"
  | empty => "NullStmnt"
  | parameters => "ParameterList"
  | definition => "DefStmnt"
  | arguments => "Arguments"
  | closure => "Closure"

end ListKind

/-- the place that messages end with: ` at line 3`, or nothing where there is no line -/
def placeText : Option Nat → String
  | some line => s!" at line {line}"
  | none => ""

inductive Node where
  | leaf (kind : LeafKind) (token : Token)
  | list (kind : ListKind) (children : List Node)

instance : Inhabited Node := ⟨.list .plain []⟩

/-- the tree of this kind with these children; an operand without calls is no list -/
def ListKind.build (kind : ListKind) (children : List Node) : Node :=
  match kind, children with
  | .primary, [operand] => operand
  | _, _ => .list kind children

namespace Node

def children : Node → List Node
  | leaf _ _ => []
  | list _ children => children

def child? (n : Node) (i : Nat) : Option Node := n.children[i]?

def token? : Node → Option Token
  | leaf _ t => some t
  | list _ _ => none

/-- is this a list of the given kind -/
def is (n : Node) (kind : ListKind) : Bool :=
  match n with
  | leaf _ _ => false
  | list k _ => k == kind

/-- a plain list without children; repetitions leave these out -/
def isVacuous : Node → Bool
  | list .plain [] => true
  | _ => false

/-- the text of a name leaf -/
def name? : Node → Option String
  | leaf .name t => some t.text
  | _ => none

/-- the name of the kind -/
def label : Node → String
  | leaf kind _ => kind.label
  | list kind _ => kind.label

mutual

/-- the line of the first token that is on a line -/
def line? : Node → Option Nat
  | leaf _ t => if t.isInputEnd then none else some t.line
  | list _ children => firstLine? children

def firstLine? : List Node → Option Nat
  | [] => none
  | n :: more =>
    match n.line? with
    | some line => some line
    | none => firstLine? more

end

/-- where the tree begins, in words -/
def location? (n : Node) : Option String := n.line?.map fun line => s!"at line {line}"

mutual

/-- the parenthesised form of a tree -/
def display : Node → String
  | leaf .string t => Text.quoted t.text
  | leaf _ t => t.display
  | list _ children => "(" ++ " ".intercalate (displayAll children) ++ ")"

def displayAll : List Node → List String
  | [] => []
  | n :: more => n.display :: displayAll more

end

end Node

end Stone
