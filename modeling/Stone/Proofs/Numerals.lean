/-
Numerals. A decimal is written with as many fraction digits as its scale says and at least one digit before the point.
The reader takes such a text back without rounding: a coefficient in range stays in range while its digits come in, and
the last of 28 fraction digits settles the text where it ends. Two decimals of one value may still have different texts,
because of zeros at the end or the sign of zero. The display of a number therefore writes the shortest form, which is
one for each value.

- `eq_iff_value`: decimals are equal if they stand for the same rational number.
- `normalize_eq_iff`: shortest forms are the same for equal decimals only.
- `readPlain_digits`: the text of a decimal reads as this decimal, unless it is a zero with a sign.
- `spelling_agrees_with_equality`: numbers are equal if they are displayed alike, and a number is equal to the text of
  another if it is equal to this other number.
-/
import Mathlib.Data.Rat.Cast.Order
import Mathlib.Tactic.FieldSimp
import Stone.Evaluate

namespace Stone

open Text

namespace Decimal

/-! ## Values -/

/-- the number that a decimal stands for -/
def value (d : Decimal) : ℚ := d.numerator / 10 ^ d.scale

theorem numeratorAt_eq (d : Decimal) (places : Nat) :
    d.numeratorAt places = d.numerator * 10 ^ (places - d.scale) := rfl

theorem numeratorAt_scale (d : Decimal) : d.numeratorAt d.scale = d.numerator := by
  rw [numeratorAt_eq, Nat.sub_self, pow_zero, mul_one]

theorem numerator_natAbs (d : Decimal) : d.numerator.natAbs = d.coefficient := by
  unfold numerator
  split <;> omega

theorem numeratorAt_eq_value {d : Decimal} {places : Nat} (h : d.scale ≤ places) :
    (d.numeratorAt places : ℚ) = d.value * 10 ^ places := by
  have hsplit : (10 : ℚ) ^ places = 10 ^ d.scale * 10 ^ (places - d.scale) := by
    rw [← pow_add, Nat.add_sub_cancel' h]
  rw [numeratorAt_eq, value, hsplit]
  push_cast
  field_simp

/-- values are compared by the numerators over any power of ten that is large enough -/
theorem value_eq_iff {a b : Decimal} {places : Nat} (ha : a.scale ≤ places) (hb : b.scale ≤ places) :
    a.value = b.value ↔ a.numeratorAt places = b.numeratorAt places := by
  have hpow : (10 : ℚ) ^ places ≠ 0 := pow_ne_zero _ (by norm_num)
  rw [← mul_left_inj' hpow, ← numeratorAt_eq_value ha, ← numeratorAt_eq_value hb, Int.cast_inj]

/-- equality of decimals is equality of what they stand for -/
theorem eq_iff_value (a b : Decimal) : a.eq b = true ↔ a.value = b.value := by
  have ha : a.scale ≤ commonScale a b := Nat.le_max_left _ _
  have hb : b.scale ≤ commonScale a b := Nat.le_max_right _ _
  rw [value_eq_iff ha hb, eq, compare, Ordering.isEq_iff_eq_eq]
  exact compare_eq_iff_eq

/-! ## Shortest forms -/

/-- a decimal with no zero at the end of its fraction and no sign on zero -/
structure IsShortest (d : Decimal) : Prop where
  fraction : d.scale = 0 ∨ d.coefficient % 10 ≠ 0
  zero_sign : d.coefficient = 0 → d.negative = false

/-- zeros are dropped together with their places, until none is left or the fraction is gone -/
theorem dropZeros_spec (c s : Nat) :
    c = (dropZeros c s).1 * 10 ^ (s - (dropZeros c s).2) ∧ ((dropZeros c s).2 = 0 ∨ (dropZeros c s).1 % 10 ≠ 0) := by
  induction s generalizing c with
  | zero => simp [dropZeros]
  | succ s ih =>
    unfold dropZeros
    split
    · rename_i hzero
      obtain ⟨hvalue, hend⟩ := ih (c / 10)
      have hle := (dropZeros_le (c / 10) s).2
      refine ⟨?_, hend⟩
      calc
        c = c / 10 * 10 := by omega
        _ = (dropZeros (c / 10) s).1 * 10 ^ (s - (dropZeros (c / 10) s).2) * 10 := by rw [← hvalue]
        _ = (dropZeros (c / 10) s).1 * 10 ^ (s + 1 - (dropZeros (c / 10) s).2) := by
          rw [Nat.succ_sub hle, pow_succ, mul_assoc]
    · rename_i hend
      simp [hend]

theorem trimZeros_value (d : Decimal) : d.trimZeros.value = d.value := by
  have hle : d.trimZeros.scale ≤ d.scale := (dropZeros_le d.coefficient d.scale).2
  have hc : (d.coefficient : ℤ) = d.trimZeros.coefficient * 10 ^ (d.scale - d.trimZeros.scale) := by
    exact_mod_cast (dropZeros_spec d.coefficient d.scale).1
  have hsign : d.trimZeros.negative = d.negative := rfl
  rw [value_eq_iff hle (Nat.le_refl _), numeratorAt_scale, numeratorAt_eq, numerator, numerator, hsign, hc]
  split
  · exact neg_mul _ _
  · rfl

theorem normalize_value (d : Decimal) : d.normalize.value = d.value := by
  unfold normalize
  split
  · rename_i h
    have hc : d.coefficient = 0 := by simpa [isZero] using h
    simp [value, numerator, zero, hc]
  · exact d.trimZeros_value

theorem normalize_isShortest (d : Decimal) : d.normalize.IsShortest := by
  unfold normalize
  split
  · exact ⟨.inl rfl, fun _ => rfl⟩
  · rename_i h
    obtain ⟨hvalue, hend⟩ := dropZeros_spec d.coefficient d.scale
    refine ⟨hend, fun hzero => absurd ?_ h⟩
    have hc : (dropZeros d.coefficient d.scale).1 = 0 := hzero
    rw [hc, zero_mul] at hvalue
    simp [isZero, hvalue]

/-- no decimal of the same value has fewer places than the shortest one -/
theorem IsShortest.scale_le {a b : Decimal} (hb : b.IsShortest) (h : a.value = b.value) : b.scale ≤ a.scale := by
  by_contra hlt
  obtain ⟨k, hk⟩ : ∃ k, b.scale - a.scale = k + 1 := ⟨b.scale - a.scale - 1, by omega⟩
  have hnum : a.numeratorAt b.scale = b.numeratorAt b.scale := (value_eq_iff (by omega) (Nat.le_refl _)).1 h
  have hten : (10 : ℤ) ∣ b.numerator := by
    rw [← b.numeratorAt_scale, ← hnum, numeratorAt_eq, hk]
    exact Dvd.dvd.mul_left (dvd_pow_self 10 (Nat.succ_ne_zero k)) _
  have hcoefficient : 10 ∣ b.coefficient := by
    rw [← b.numerator_natAbs]
    exact Int.natAbs_dvd_natAbs.2 hten
  rcases hb.fraction with hscale | hend
  · omega
  · exact hend (Nat.mod_eq_zero_of_dvd hcoefficient)

/-- a value has one shortest form -/
theorem IsShortest.eq_of_value {a b : Decimal} (ha : a.IsShortest) (hb : b.IsShortest) (h : a.value = b.value) :
    a = b := by
  have hscale : a.scale = b.scale := Nat.le_antisymm (ha.scale_le h.symm) (hb.scale_le h)
  have hnum : a.numerator = b.numerator := by
    have := (value_eq_iff (Nat.le_of_eq hscale) (Nat.le_refl _)).1 h
    rwa [b.numeratorAt_scale, ← hscale, a.numeratorAt_scale] at this
  have hcoefficient : a.coefficient = b.coefficient := by
    rw [← a.numerator_natAbs, ← b.numerator_natAbs, hnum]
  have hsign : a.negative = b.negative := by
    by_cases hzero : a.coefficient = 0
    · rw [ha.zero_sign hzero, hb.zero_sign (hcoefficient ▸ hzero)]
    · unfold numerator at hnum
      cases hn : a.negative <;> cases hm : b.negative <;> simp only [hn, hm] at hnum ⊢ <;> simp at hnum <;> omega
  obtain ⟨na, ca, sa, _, _⟩ := a
  obtain ⟨nb, cb, sb, _, _⟩ := b
  cases hscale
  cases hcoefficient
  cases hsign
  rfl

/-- equal decimals have the same shortest form, and others have not -/
theorem normalize_eq_iff (a b : Decimal) : a.normalize = b.normalize ↔ a.eq b = true := by
  rw [eq_iff_value]
  constructor
  · intro h
    rw [← a.normalize_value, h, b.normalize_value]
  · intro h
    apply a.normalize_isShortest.eq_of_value b.normalize_isShortest
    rw [a.normalize_value, b.normalize_value, h]

/-! ## Reading digits -/

theorem digit_of_isDigit {c : Char} (h : c.isDigit = true) : digit? c = some (c.toNat - '0'.toNat) := if_pos h

theorem isDigit_ne {c d : Char} (h : c.isDigit = true) (hd : d.isDigit = false) : c ≠ d := by
  intro heq
  rw [← heq, h] at hd
  cases hd

/-- one more digit while the coefficient stays in range -/
theorem readDigits_digit {pointed begun : Bool} {coefficient scale : Nat} {c : Char} {rest : List Char}
    (hc : c.isDigit = true) (hb : 10 * coefficient + (c.toNat - '0'.toNat) < coefficientBound) :
    readDigits pointed begun coefficient scale (c :: rest) =
      let grown := 10 * coefficient + (c.toNat - '0'.toNat)
      if !pointed then readDigits pointed true grown scale rest
      else if scale + 1 < maxScale then readDigits pointed true grown (scale + 1) rest
      else if coefficient < largeCoefficient then settle grown (scale + 1) rest
      else settle grown (scale + 1) (rest.dropWhile (· == '_')) := by
  rw [Nat.mul_comm] at hb
  rw [readDigits, if_neg (isDigit_ne hc rfl), if_neg (isDigit_ne hc rfl), digit_of_isDigit hc]
  simp only [Nat.not_le.2 hb, if_false, Nat.mul_comm 10]

/-- digits never make a number smaller -/
theorem le_ofDigitChars (cs : List Char) (n : Nat) : n ≤ Nat.ofDigitChars 10 cs n := by
  rw [Nat.ofDigitChars_eq_ofDigitChars_zero]
  exact Nat.le_add_right_of_le (Nat.le_mul_of_pos_left n (Nat.pow_pos (by omega)))

/-- digits before the point -/
theorem readDigits_whole {cs : List Char} (hcs : ∀ c ∈ cs, c.isDigit = true) {begun : Bool} {coefficient scale : Nat}
    (hb : Nat.ofDigitChars 10 cs coefficient < coefficientBound) (rest : List Char) :
    readDigits false begun coefficient scale (cs ++ rest) =
      readDigits false (begun || !cs.isEmpty) (Nat.ofDigitChars 10 cs coefficient) scale rest := by
  induction cs generalizing begun coefficient with
  | nil => simp
  | cons c cs ih =>
    obtain ⟨hc, hcs⟩ := List.forall_mem_cons.1 hcs
    rw [Nat.ofDigitChars_cons] at hb ⊢
    rw [List.cons_append, readDigits_digit hc (Nat.lt_of_le_of_lt (le_ofDigitChars cs _) hb)]
    simp only [Bool.not_false, if_true, List.isEmpty_cons, Bool.or_true]
    rw [ih hcs hb, Bool.true_or]

/-- digits after the point, up to the end of the text -/
theorem readDigits_fraction {cs : List Char} (hcs : ∀ c ∈ cs, c.isDigit = true) {coefficient scale : Nat}
    (hb : Nat.ofDigitChars 10 cs coefficient < coefficientBound) (hs : scale + cs.length ≤ maxScale) :
    readDigits true true coefficient scale cs = some (Nat.ofDigitChars 10 cs coefficient, scale + cs.length) := by
  induction cs generalizing coefficient scale with
  | nil => simp [readDigits]
  | cons c cs ih =>
    obtain ⟨hc, hcs⟩ := List.forall_mem_cons.1 hcs
    rw [Nat.ofDigitChars_cons] at hb ⊢
    rw [List.length_cons] at hs ⊢
    rw [readDigits_digit hc (Nat.lt_of_le_of_lt (le_ofDigitChars cs _) hb)]
    by_cases hroom : scale + 1 < maxScale
    · simp only [Bool.not_true, Bool.false_eq_true, if_false, hroom, if_true]
      rw [ih hcs hb (by omega), Nat.add_right_comm, Nat.add_assoc]
    · -- the scale is full, so this digit was the last one
      have hnil : cs = [] := List.eq_nil_of_length_eq_zero (by omega)
      simp [hroom, hnil, settle]

/-! ## Reading what was written -/

theorem mem_padded {n s : Nat} {c : Char} (h : c ∈ (Nat.toDigits 10 n).leftpad s '0') : c.isDigit = true := by
  rcases List.mem_append.1 h with hzero | hdigit
  · rw [List.eq_of_mem_replicate hzero]
    rfl
  · exact Nat.isDigit_of_mem_toDigits (by omega) (by omega) hdigit

theorem mem_unsignedDigits {n s : Nat} {c : Char} (h : c ∈ unsignedDigits n s) : c.isDigit = true ∨ c = '.' := by
  unfold unsignedDigits at h
  split at h
  · exact .inl (mem_padded h)
  · rcases List.mem_append.1 h with hwhole | hfraction
    · exact .inl (mem_padded (List.mem_of_mem_take hwhole))
    · rcases List.mem_cons.1 hfraction with hpoint | hfraction
      · exact .inr hpoint
      · exact .inl (mem_padded (List.mem_of_mem_drop hfraction))

/-- zeros in front do not count -/
theorem ofDigitChars_padded (n s : Nat) : Nat.ofDigitChars 10 ((Nat.toDigits 10 n).leftpad s '0') 0 = n := by
  rw [List.leftpad, Nat.ofDigitChars_append, Nat.ofDigitChars_replicate_zero, Nat.mul_zero,
    Nat.ofDigitChars_ten_toDigits]

/-- digits with a point among them, and at least one in front of it -/
theorem readDigits_pointed {whole fraction : List Char} (hw : ∀ c ∈ whole, c.isDigit = true)
    (hne : whole.isEmpty = false) (hf : ∀ c ∈ fraction, c.isDigit = true)
    (hb : Nat.ofDigitChars 10 (whole ++ fraction) 0 < coefficientBound) (hs : fraction.length ≤ maxScale) :
    readDigits false false 0 0 (whole ++ '.' :: fraction) =
      some (Nat.ofDigitChars 10 (whole ++ fraction) 0, fraction.length) := by
  rw [Nat.ofDigitChars_append] at hb ⊢
  rw [readDigits_whole hw (Nat.lt_of_le_of_lt (le_ofDigitChars fraction _) hb), hne, readDigits]
  simp only [if_true, Bool.false_eq_true, if_false, Bool.not_false, Bool.or_true]
  rw [readDigits_fraction hf hb (by omega), Nat.zero_add]

theorem readDigits_unsignedDigits {n s : Nat} (hn : n < coefficientBound) (hs : s ≤ maxScale) :
    readDigits false false 0 0 (unsignedDigits n s) = some (n, s) := by
  unfold unsignedDigits
  generalize hds : (Nat.toDigits 10 n).leftpad (s + 1) '0' = ds
  have hdigits : ∀ c ∈ ds, c.isDigit = true := by
    intro c hc
    exact mem_padded (hds ▸ hc)
  have hvalue : Nat.ofDigitChars 10 ds 0 = n := by rw [← hds, ofDigitChars_padded]
  have hlength : s + 1 ≤ ds.length := by
    rw [← hds, List.length_leftpad]
    exact Nat.le_max_left _ _
  simp only
  split
  · rename_i hzero
    have hne : ds.isEmpty = false := by
      rw [List.isEmpty_eq_false_iff, ← List.length_pos_iff_ne_nil]
      omega
    rw [← List.append_nil ds, readDigits_whole hdigits (hvalue.symm ▸ hn), hvalue, hne, hzero]
    rfl
  · have hne : (ds.take (ds.length - s)).isEmpty = false := by
      rw [List.isEmpty_eq_false_iff, ← List.length_pos_iff_ne_nil, List.length_take]
      omega
    have hlen : (ds.drop (ds.length - s)).length = s := by
      rw [List.length_drop]
      omega
    have hjoin : Nat.ofDigitChars 10 (ds.take (ds.length - s) ++ ds.drop (ds.length - s)) 0 = n := by
      rw [List.take_append_drop, hvalue]
    have hwhole : ∀ c ∈ ds.take (ds.length - s), c.isDigit = true := fun c hc => hdigits c (List.mem_of_mem_take hc)
    have hfraction : ∀ c ∈ ds.drop (ds.length - s), c.isDigit = true := fun c hc => hdigits c (List.mem_of_mem_drop hc)
    rw [readDigits_pointed hwhole hne hfraction (hjoin.symm ▸ hn) (hlen.symm ▸ hs), hjoin, hlen]

/-- the text of a decimal reads as this decimal; only the sign of zero is lost -/
theorem readPlain_digits {d : Decimal} (h : d.coefficient = 0 → d.negative = false) :
    readPlain? d.digits = some d := by
  have hread := readDigits_unsignedDigits d.coefficient_lt d.scale_le
  have hparts : ofRead d.negative (d.coefficient, d.scale) = some d := by
    have hsign : (d.negative && d.coefficient != 0) = d.negative := by
      by_cases hzero : d.coefficient = 0
      · simp [h hzero]
      · simp [hzero]
    rw [ofRead, ofParts?, dif_pos ⟨d.coefficient_lt, d.scale_le⟩]
    simp only [hsign]
  have hunsigned : ∀ c : Char, c.isDigit = false → c ≠ '.' → c ∉ unsignedDigits d.coefficient d.scale := by
    intro c hc hpoint hm
    rcases mem_unsignedDigits hm with hdigit | hm
    · rw [hc] at hdigit
      cases hdigit
    · exact hpoint hm
  unfold digits
  cases hn : d.negative with
  | true =>
    rw [if_pos rfl, readPlain?, hread, Option.bind_some, ← hn, hparts]
  | false =>
    rw [if_neg (by simp)]
    unfold readPlain?
    split
    · rename_i heq
      exact absurd (heq ▸ List.mem_cons_self) (hunsigned '-' (by decide) (by decide))
    · rename_i heq
      exact absurd (heq ▸ List.mem_cons_self) (hunsigned '+' (by decide) (by decide))
    · rw [hread, Option.bind_some, ← hn, hparts]

/-! ## Texts -/

theorem digit_not_blank {c : Char} (h : c.isDigit = true) : isBlank c = false := by
  simp only [Char.isDigit, Bool.and_eq_true, decide_eq_true_eq, UInt32.le_iff_toNat_le] at h
  have hc : c.toNat = c.val.toNat := rfl
  have h0 : '0'.val.toNat = 48 := rfl
  have h9 : '9'.val.toNat = 57 := rfl
  simp [isBlank, inRanges, blankRanges]
  omega

theorem digits_not_blank {d : Decimal} {c : Char} (h : c ∈ d.digits) : isBlank c = false := by
  have hunsigned : ∀ c ∈ unsignedDigits d.coefficient d.scale, isBlank c = false := by
    intro c hc
    rcases mem_unsignedDigits hc with hdigit | rfl
    · exact digit_not_blank hdigit
    · decide
  unfold digits at h
  split at h
  · rcases List.mem_cons.1 h with rfl | h
    · decide
    · exact hunsigned c h
  · exact hunsigned c h

theorem trimBlanks_of_not_blank {cs : List Char} (h : ∀ c ∈ cs, isBlank c = false) : trimBlanks cs = cs := by
  have hdrop : ∀ ds : List Char, (∀ c ∈ ds, isBlank c = false) → ds.dropWhile isBlank = ds := by
    intro ds hds
    cases ds with
    | nil => rfl
    | cons c ds => rw [List.dropWhile_cons_of_neg (by simp [hds c List.mem_cons_self])]
  rw [trimBlanks, hdrop cs h, hdrop cs.reverse fun c hc => h c (List.mem_reverse.1 hc), List.reverse_reverse]

/-- the text of a shortest form is read back as equality across types reads texts -/
theorem IsShortest.readChars_text {d : Decimal} (h : d.IsShortest) :
    readChars? (trimBlanks d.text.toList) = some d := by
  rw [text, String.toList_ofList, trimBlanks_of_not_blank fun c hc => digits_not_blank hc, readChars?,
    readPlain_digits h.zero_sign]

/-- shortest forms have the same text only if they are the same -/
theorem IsShortest.text_injective {a b : Decimal} (ha : a.IsShortest) (hb : b.IsShortest) (h : a.text = b.text) :
    a = b := by
  have := hb.readChars_text
  rw [← h, ha.readChars_text] at this
  exact Option.some.inj this

end Decimal

/-! ## Display and equality -/

theorem display_eq_iff (n m : Decimal) : (Value.number n).display = (Value.number m).display ↔ n.eq m = true := by
  rw [← Decimal.normalize_eq_iff]
  constructor
  · intro h
    exact n.normalize_isShortest.text_injective m.normalize_isShortest h
  · intro h
    exact congrArg Decimal.text h

example : (Value.number ⟨true, 0, 3, by decide, by decide⟩).display = "0" := by decide

/-- a number and the text of another are compared as the two numbers are -/
theorem looselyEqual_display (n m : Decimal) :
    looselyEqual (.number n) (.string (Value.number m).display) = n.eq m ∧
      looselyEqual (.string (Value.number m).display) (.number n) = n.eq m := by
  have hread : Decimal.readChars? (trimBlanks (Value.number m).display.toList) = some m.normalize :=
    m.normalize_isShortest.readChars_text
  have heq : m.normalize.eq n = n.eq m := by
    rw [Bool.eq_iff_iff, Decimal.eq_iff_value, Decimal.eq_iff_value, m.normalize_value]
    exact Eq.comm
  constructor <;> rw [looselyEqual, hread] <;> exact heq

/-- **Spelling and equality agree.** Two numbers of any sign, coefficient and scale, added to the empty text, give the
same text if and only if they are equal, that is, if they stand for the same rational number. The text of one of them is
equal to the other, from either side, in exactly this case. -/
theorem spelling_agrees_with_equality (n m : Decimal) (line : Option Nat) :
    ∃ s t : String,
      applyOperator .add (.string "") (.number n) line = .ok (.string s) ∧
      applyOperator .add (.string "") (.number m) line = .ok (.string t) ∧
      (s = t ↔ n.eq m = true) ∧
      applyOperator .equal (.number n) (.string t) line = .ok (.ofBool (n.eq m)) ∧
      applyOperator .equal (.string t) (.number n) line = .ok (.ofBool (n.eq m)) ∧
      applyOperator .equal (.number n) (.number m) line = .ok (.ofBool (n.eq m)) ∧
      (n.eq m = true ↔ n.value = m.value) := by
  obtain ⟨hleft, hright⟩ := looselyEqual_display n m
  have hadd : ∀ d : Decimal,
      applyOperator .add (.string "") (.number d) line = .ok (.string (Value.number d).display) := by
    intro d
    exact congrArg (fun text => Except.ok (Value.string text)) String.empty_append
  refine ⟨_, _, hadd n, hadd m, display_eq_iff n m, ?_, ?_, rfl, Decimal.eq_iff_value n m⟩
  · rw [applyOperator, hleft]
  · rw [applyOperator, hright]

end Stone
