/-
Decimal numbers of bounded size: a sign, a coefficient below 2^96 and a scale of at most 28 fraction digits, so that a
number is `± coefficient / 10^scale`.

The bounds are proof fields, so every decimal in the library keeps them. `nearest` is the one place where the result of
an operation is rounded: it takes a quotient of naturals and keeps as many fraction digits as the coefficient has room
for. Two decimals of one value may differ in scale (`1.5` and `1.50`) and in the sign of zero; `eq`, `lt` and `le`
compare values, `normalize` picks the shortest form.
-/

namespace Stone

/-- the coefficients of decimals lie below this -/
def coefficientBound : Nat := 79228162514264337593543950336

/-- the largest scale of a decimal -/
def maxScale : Nat := 28

/-- the number `± coefficient / 10^scale` -/
structure Decimal where
  negative : Bool
  coefficient : Nat
  scale : Nat
  coefficient_lt : coefficient < coefficientBound
  scale_le : scale ≤ maxScale
deriving DecidableEq

namespace Decimal

/-! ## Construction -/

/-- the decimal with these parts, if they are within bounds; zero gets no sign -/
def ofParts? (negative : Bool) (coefficient scale : Nat) : Option Decimal :=
  if h : coefficient < coefficientBound ∧ scale ≤ maxScale then
    some ⟨negative && coefficient != 0, coefficient, scale, h.1, h.2⟩
  else none

def zero : Decimal := ⟨false, 0, 0, by decide, by decide⟩

def one : Decimal := ⟨false, 1, 0, by decide, by decide⟩

/-- truth as a number: one or zero -/
def ofBool (b : Bool) : Decimal := if b then one else zero

/-- a whole number, if it is within range -/
def ofInt? (i : Int) : Option Decimal := ofParts? (i < 0) i.natAbs 0

instance : Inhabited Decimal := ⟨zero⟩

/-! ## Value -/

def isZero (d : Decimal) : Bool := d.coefficient == 0

/-- the coefficient with its sign -/
def numerator (d : Decimal) : Int := if d.negative then -(d.coefficient : Int) else d.coefficient

/-- the numerator over `10^places` instead of `10^scale`; exact for `places ≥ scale` -/
def numeratorAt (d : Decimal) (places : Nat) : Int := d.numerator * Int.pow 10 (places - d.scale)

/-- the larger of two scales, at which both numbers are exact -/
def commonScale (a b : Decimal) : Nat := max a.scale b.scale

/-- order by value -/
def compare (a b : Decimal) : Ordering :=
  Ord.compare (a.numeratorAt (commonScale a b)) (b.numeratorAt (commonScale a b))

/-- equality by value -/
def eq (a b : Decimal) : Bool := (a.compare b).isEq

def lt (a b : Decimal) : Bool := (a.compare b).isLT

def le (a b : Decimal) : Bool := (a.compare b).isLE

/-- the sign turned, also that of zero -/
def neg (d : Decimal) : Decimal := { d with negative := !d.negative }

/-! ## Shortest form -/

/-- drops the trailing zeros among the last `scale` digits of a coefficient, with the digits that are left -/
def dropZeros (coefficient : Nat) : Nat → Nat × Nat
  | 0 => (coefficient, 0)
  | scale + 1 => if coefficient % 10 = 0 then dropZeros (coefficient / 10) scale else (coefficient, scale + 1)

theorem dropZeros_le (c s : Nat) : (dropZeros c s).1 ≤ c ∧ (dropZeros c s).2 ≤ s := by
  induction s generalizing c with
  | zero => simp [dropZeros]
  | succ s ih =>
    unfold dropZeros
    split
    · exact ⟨Nat.le_trans (ih (c / 10)).1 (Nat.div_le_self c 10), Nat.le_succ_of_le (ih (c / 10)).2⟩
    · exact ⟨Nat.le_refl c, Nat.le_refl (s + 1)⟩

/-- the same value with no trailing zeros among its fraction digits; the sign of zero stays -/
def trimZeros (d : Decimal) : Decimal :=
  ⟨d.negative, (dropZeros d.coefficient d.scale).1, (dropZeros d.coefficient d.scale).2,
    Nat.lt_of_le_of_lt (dropZeros_le _ _).1 d.coefficient_lt, Nat.le_trans (dropZeros_le _ _).2 d.scale_le⟩

/-- the shortest form of a value: no trailing fraction zeros, and zero is plain zero -/
def normalize (d : Decimal) : Decimal := if d.isZero then zero else d.trimZeros

/-! ## Rounding -/

/-- the largest number of places, at most the given one, that leaves the truncated quotient below the bound -/
def largestPlaces (num den : Nat) : Nat → Option Nat
  | 0 => if num / den < coefficientBound then some 0 else none
  | places + 1 =>
    if num * Nat.pow 10 (places + 1) / den < coefficientBound then some (places + 1) else largestPlaces num den places

/-- the quotient to the nearest natural, a half to the even one -/
def divHalfEven (num den : Nat) : Nat :=
  let q := num / den
  let r := num % den
  if 2 * r > den ∨ (2 * r = den ∧ q % 2 = 1) then q + 1 else q

/-- **Rounding.** The quotient `num / den` with as many places as fit, at most `places`, a half going to the even
neighbour. A coefficient that reaches the bound by rounding loses one digit more. None if the whole part does not
fit. -/
def nearest (negative : Bool) (num den places : Nat) : Option Decimal :=
  match largestPlaces num den places with
  | none => none
  | some p =>
    let c := divHalfEven (num * Nat.pow 10 p) den
    if c < coefficientBound then ofParts? negative c p
    else if p = 0 then none
    else ofParts? negative ((c + 4) / 10) (p - 1)

end Decimal

end Stone
