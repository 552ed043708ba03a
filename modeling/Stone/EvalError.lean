/-
Why a program stops while it runs. Every error knows the line of the tree that failed, if that tree is on a line.
-/
import Stone.Node.Basic
import Stone.Operator

namespace Stone

inductive EvalError where
  /-- a name that no scope binds -/
  | undefinedName (name : String) (line : Option Nat)
  /-- an assignment to something other than a name -/
  | badAssignment (line : Option Nat)
  /-- an operator on values of types it does not take -/
  | badType (op found : String) (line : Option Nat)
  /-- a mark that is no operator -/
  | badOperator (op : String) (line : Option Nat)
  /-- a call with the wrong number of arguments -/
  | arity (expected got : Nat) (line : Option Nat)
  /-- a call of something other than a function -/
  | notAFunction (found : String) (line : Option Nat)
  /-- a division or remainder by zero -/
  | divisionByZero (line : Option Nat)
  /-- a result out of range -/
  | overflow (line : Option Nat)
  /-- evaluations nested beyond the limit -/
  | tooDeep (line : Option Nat)
  /-- a tree that has no value -/
  | cannotEvaluate (kind : String) (line : Option Nat)
deriving DecidableEq

namespace EvalError

def line? : EvalError → Option Nat
  | undefinedName _ line => line
  | badAssignment line => line
  | badType _ _ line => line
  | badOperator _ line => line
  | arity _ _ line => line
  | notAFunction _ line => line
  | divisionByZero line => line
  | overflow line => line
  | tooDeep line => line
  | cannotEvaluate _ line => line

/-- what went wrong, without the place -/
def cause : EvalError → String
  | undefinedName name _ => s!"undefined name: {name}"
  | badAssignment _ => "bad assignment"
  | badType op found _ => s!"bad type for {op}: {found}"
  | badOperator op _ => s!"bad operator: {op}"
  | arity expected got _ => s!"bad number of arguments: expected {expected}, got {got}"
  | notAFunction found _ => s!"not a function: {found}"
  | divisionByZero _ => "division by zero"
  | overflow _ => "arithmetic overflow"
  | tooDeep _ => "recursion too deep"
  | cannotEvaluate kind _ => s!"cannot evaluate {kind}"

def message (e : EvalError) : String := e.cause ++ placeText e.line?

/-- the error for a tree without a value -/
def noValue (n : Node) : EvalError := cannotEvaluate n.label n.line?

end EvalError

end Stone
