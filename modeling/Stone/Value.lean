/-
Values: numbers, strings, functions and the unit of empty statements. A function keeps its parameters and its body as
trees, the scope in which it was made, and a number of its own that tells it from every other function.
-/
import Stone.Decimal.Text
import Stone.Node.Basic

namespace Stone

/-- the place of a scope -/
abbrev ScopeId := Nat

structure Function where
  /-- no two functions have the same number -/
  id : Nat
  /-- closures have none -/
  name : Option String
  params : Node
  body : Node
  /-- where the function was made -/
  scope : ScopeId

namespace Function

/-- how many arguments a call needs -/
def arity (f : Function) : Nat := f.params.children.length

/-- the parameters in order; children that are no leaves have no name -/
def paramNames (f : Function) : List String := f.params.children.filterMap fun p => p.token?.map Token.text

def display (f : Function) : String :=
  let params := ", ".intercalate f.paramNames
  match f.name with
  | some name => s!"<fun {name}({params})>"
  | none => s!"<fun ({params})>"

/-- the function without its trees, for diagnosis -/
def summary (f : Function) : String :=
  let name := match f.name with
    | some name => s!"Some({Text.quoted name})"
    | none => "None"
  "Function \x7b name: " ++ name ++ s!", arity: {f.arity}, .. " ++ "\x7d"

end Function

inductive Value where
  | number (value : Decimal)
  | string (text : String)
  | function (f : Function)
  /-- what an empty statement gives -/
  | unit

instance : Inhabited Value := ⟨.unit⟩

namespace Value

def ofBool (b : Bool) : Value := number (Decimal.ofBool b)

def zero : Value := number Decimal.zero

/-- what conditions take for true: everything but the number zero -/
def isTruthy : Value → Bool
  | number d => !d.isZero
  | _ => true

def number? : Value → Option Decimal
  | number d => some d
  | _ => none

def function? : Value → Option Function
  | function f => some f
  | _ => none

def typeName : Value → String
  | number _ => "number"
  | string _ => "string"
  | function _ => "function"
  | unit => "unit"

/-- equality: numbers by value, functions by identity -/
def same : Value → Value → Bool
  | number a, number b => a.eq b
  | string a, string b => a == b
  | function f, function g => f.id == g.id
  | unit, unit => true
  | _, _ => false

/-- the text of a value; numbers are shown in their shortest form -/
def display : Value → String
  | number d => d.normalize.text
  | string s => s
  | function f => f.display
  | unit => "()"

end Value

end Stone
