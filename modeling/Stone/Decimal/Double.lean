/-
The double that stands for a decimal in JSON text. Whole numbers round to the nearest double. For the others whole part
and fraction are turned into doubles one by one, and the sum is rounded once more to the places of the decimal, a half
away from zero, to clear what the addition left behind.
-/
import Stone.Decimal.Basic

namespace Stone.Decimal

/-- the double nearest to a natural number -/
def doubleOfNat (n : Nat) : Float := Float.ofScientific n false 0

/-- `acc * base^n` by squaring -/
def powerOf (acc base : Float) (n : Nat) : Float :=
  let acc' := if n % 2 = 1 then acc * base else acc
  if n / 2 = 0 then acc' else powerOf acc' (base * base) (n / 2)
termination_by n
decreasing_by omega

/-- the double for `coefficient / 10^scale` -/
def unsignedDouble (coefficient scale : Nat) : Float :=
  if scale = 0 then doubleOfNat coefficient
  else
    let whole := doubleOfNat (coefficient / Nat.pow 10 scale)
    let fraction := doubleOfNat (coefficient % Nat.pow 10 scale) / doubleOfNat (Nat.pow 10 scale)
    if fraction == 0 then whole
    else
      let shift := powerOf 1 10 scale
      ((whole + fraction) * shift).round / shift

def toDouble (d : Decimal) : Float :=
  let x := unsignedDouble d.coefficient d.scale
  if d.negative then -x else x

end Stone.Decimal
