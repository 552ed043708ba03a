/-
Why a computation stops without a result. Some rule tables and some programs ask for endless work, so the parsing and
evaluating functions, which always answer, have an answer for that too.
-/

namespace Stone

inductive Stop (ε : Type) where
  /-- an error of the input -/
  | raised (error : ε)
  /-- work without end -/
  | endless
deriving DecidableEq

/-- the same reason with another kind of error -/
def Stop.map {ε δ : Type} (f : ε → δ) : Stop ε → Stop δ
  | raised e => raised (f e)
  | endless => endless

end Stone
