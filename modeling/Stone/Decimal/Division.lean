/-
Division. A quotient takes its digits in groups of up to nine, as long division does, and stops after the first group
that leaves no remainder, or where the coefficient or the scale is full. So an exact quotient often ends in zeros that
nothing asked for; `trimGroups` takes some of them away again, also in groups. The value of a quotient does not depend
on the groups, only its scale does: `7 / 5` is `1.40`.
-/
import Stone.Decimal.Basic

namespace Stone.Decimal

/-! ## Digits of a quotient -/

/-- the most digits that a group has -/
def maxGroup : Nat := 9

/-- how many digits, at most the given number, a coefficient has room for -/
def room (coefficient : Nat) : Nat → Nat
  | 0 => 0
  | n + 1 => if coefficient * Nat.pow 10 (n + 1) < coefficientBound then n + 1 else room coefficient n

/-- the size of the next group of digits of `num / den`, when `taken` digits are there and `places` of them are fraction
digits. Without a remainder only missing places of the whole part are filled. -/
def nextGroup (num den taken : Nat) (places : Int) : Nat :=
  if num * Nat.pow 10 taken % den = 0 then min maxGroup (-places).toNat
  else room (num * Nat.pow 10 taken / den) (min maxGroup ((maxScale : Int) - places).toNat)

/-- takes digits of `num / den` until a group is empty, and answers the number of fraction digits then. Where no digit
is taken there are `places` of them; every group adds at least one, so there are at most `steps` groups. -/
def quotientPlaces (num den : Nat) (places : Int) (taken : Nat) : Nat → Nat
  | 0 => (places + taken).toNat
  | steps + 1 =>
    match nextGroup num den taken (places + taken) with
    | 0 => (places + taken).toNat
    | n + 1 => quotientPlaces num den places (taken + (n + 1)) steps

/-! ## Zeros at the end -/

/-- drops `n` zeros at the end of a coefficient with a scale, if so many of the fraction digits are zeros -/
def dropGroup (n : Nat) (p : Nat × Nat) : Nat × Nat :=
  if n ≤ p.2 ∧ p.1 % Nat.pow 10 n = 0 then (p.1 / Nat.pow 10 n, p.2 - n) else p

/-- drops zeros eight at a time, as long as the last 32 bits of the coefficient are clear -/
def dropEights (p : Nat × Nat) : Nat → Nat × Nat
  | 0 => p
  | times + 1 => if p.1 % Nat.pow 2 32 = 0 then dropEights (dropGroup 8 p) times else p

/-- drops zeros in groups: of eight where they are tried, then one of four, of two and of one -/
def dropGroups (p : Nat × Nat) : Nat × Nat :=
  dropGroup 1 (dropGroup 2 (dropGroup 4 (dropEights p 3)))

theorem dropGroup_le (n : Nat) (p : Nat × Nat) : (dropGroup n p).1 ≤ p.1 ∧ (dropGroup n p).2 ≤ p.2 := by
  unfold dropGroup
  split
  · exact ⟨Nat.div_le_self _ _, Nat.sub_le _ _⟩
  · exact ⟨Nat.le_refl _, Nat.le_refl _⟩

theorem dropEights_le (p : Nat × Nat) (times : Nat) : (dropEights p times).1 ≤ p.1 ∧ (dropEights p times).2 ≤ p.2 := by
  induction times generalizing p with
  | zero => exact ⟨Nat.le_refl _, Nat.le_refl _⟩
  | succ times ih =>
    unfold dropEights
    split
    · exact ⟨Nat.le_trans (ih _).1 (dropGroup_le 8 p).1, Nat.le_trans (ih _).2 (dropGroup_le 8 p).2⟩
    · exact ⟨Nat.le_refl _, Nat.le_refl _⟩

theorem dropGroups_le (p : Nat × Nat) : (dropGroups p).1 ≤ p.1 ∧ (dropGroups p).2 ≤ p.2 := by
  have h1 := dropGroup_le 1 (dropGroup 2 (dropGroup 4 (dropEights p 3)))
  have h2 := dropGroup_le 2 (dropGroup 4 (dropEights p 3))
  have h4 := dropGroup_le 4 (dropEights p 3)
  have h8 := dropEights_le p 3
  exact ⟨Nat.le_trans h1.1 (Nat.le_trans h2.1 (Nat.le_trans h4.1 h8.1)),
    Nat.le_trans h1.2 (Nat.le_trans h2.2 (Nat.le_trans h4.2 h8.2))⟩

/-- the same value with groups of zeros dropped -/
def trimGroups (d : Decimal) : Decimal :=
  ⟨d.negative, (dropGroups (d.coefficient, d.scale)).1, (dropGroups (d.coefficient, d.scale)).2,
    Nat.lt_of_le_of_lt (dropGroups_le _).1 d.coefficient_lt, Nat.le_trans (dropGroups_le _).2 d.scale_le⟩

/-! ## The quotient -/

/-- the quotient by a divisor other than zero, with as many places as long division takes. Zeros at the end are dropped
unless the coefficients divide without a remainder. -/
def div (a b : Decimal) : Option Decimal :=
  if a.isZero then some zero
  else
    let places := quotientPlaces a.coefficient b.coefficient ((a.scale : Int) - b.scale) 0 (2 * maxScale + 1)
    let quotient :=
      nearest (a.negative != b.negative) (a.coefficient * Nat.pow 10 b.scale) (b.coefficient * Nat.pow 10 a.scale)
        places
    if a.coefficient % b.coefficient = 0 then quotient else quotient.map trimGroups

end Stone.Decimal
