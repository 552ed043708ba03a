/-
Sums, differences, products and remainders of decimals. A result that is exact and in range is kept as it is, with the
scale that the operation gives it; otherwise it is rounded by `nearest`, and an operation answers none when even the
whole part does not fit. Zero as the result of a calculation has no sign; a side that is passed on keeps its own.
-/
import Stone.Decimal.Basic

namespace Stone.Decimal

/-- a whole numerator over `10^places`, rounded into range -/
def ofScaled (numerator : Int) (places : Nat) : Option Decimal :=
  nearest (numerator < 0) numerator.natAbs (Nat.pow 10 places) (min places maxScale)

/-- the sum; zero on one side leaves the other side as it is -/
def add (a b : Decimal) : Option Decimal :=
  if a.isZero then some b
  else if b.isZero then some a
  else
    let s := commonScale a b
    ofScaled (a.numeratorAt s + b.numeratorAt s) s

/-- the difference; zero on the left turns the sign of the right side, unless that is zero too -/
def sub (a b : Decimal) : Option Decimal :=
  if a.isZero then some (if b.isZero then b else b.neg)
  else if b.isZero then some a
  else
    let s := commonScale a b
    ofScaled (a.numeratorAt s - b.numeratorAt s) s

/-- coefficients below this fit 32 bits -/
def smallCoefficient : Nat := 4294967296

/-- products of two small coefficients with more places than this are taken for zero at once -/
def maxProductPlaces : Nat := 47

/-- the product -/
def mul (a b : Decimal) : Option Decimal :=
  let small := a.coefficient < smallCoefficient ∧ b.coefficient < smallCoefficient
  if a.isZero || b.isZero then some zero
  else if small ∧ maxProductPlaces < a.scale + b.scale then some zero
  else ofScaled (a.numerator * b.numerator) (a.scale + b.scale)

/-- the remainder of the division that cuts toward zero, by a divisor other than zero. It has the sign of the left side;
a left side smaller than the divisor is its own remainder, and sides of one size leave plain zero. -/
def rem (a b : Decimal) : Option Decimal :=
  let s := commonScale a b
  let m := (a.numeratorAt s).natAbs
  let n := (b.numeratorAt s).natAbs
  if a.isZero then some zero
  else if m < n then some a
  else if m = n then some zero
  else ofParts? a.negative (m % n) s

end Stone.Decimal
