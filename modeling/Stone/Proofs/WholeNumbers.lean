/-
Whole numbers as JSON. A number counts as whole by its value, whatever its scale: `4.00` is whole, and its shortest form
has no fraction. It is written as an integer if it fits 64 bits with a sign. Decimals reach further than that, up to 96
bits, and outside of the 64 bits a whole number is written as a double, which shows a point or an exponent.

- `normalize_of_whole`: the shortest form of a whole number.
- `point_or_exponent`: the text of a double is never that of an integer.
- `whole_number_text`: whole numbers that fit are written exactly, alone and among others, and no others are.
- `two_to_the_63_inexact`: the first positive number that does not fit.
-/
import Mathlib
import Stone.Command
import Stone.Proofs.Numerals

namespace Stone

/-! ## Shortest forms -/

namespace Decimal

/-- **The shortest form of a whole number** has no fraction. -/
theorem normalize_of_whole {d : Decimal} {i : Int} (h : d.value = i) :
    d.normalize.scale = 0 ∧ d.normalize.numerator = i := by
  have hvalue : d.normalize.value = i := d.normalize_value.trans h
  have hnum : d.normalize.numerator = i * 10 ^ d.normalize.scale := by
    have hpow : (10 : ℚ) ^ d.normalize.scale ≠ 0 := pow_ne_zero _ (by norm_num)
    rw [value, div_eq_iff hpow] at hvalue
    exact_mod_cast hvalue
  have hscale : d.normalize.scale = 0 := by
    by_contra hne
    -- a fraction of a whole number would end in a zero
    have hten : (10 : ℤ) ∣ d.normalize.numerator := by
      rw [hnum]
      exact Dvd.dvd.mul_left (dvd_pow_self 10 hne) i
    have hcoefficient : 10 ∣ d.normalize.coefficient := by
      rw [← d.normalize.numerator_natAbs]
      exact Int.natAbs_dvd_natAbs.2 hten
    exact (d.normalize_isShortest.fraction.resolve_left hne) (Nat.mod_eq_zero_of_dvd hcoefficient)
  rw [hscale, pow_zero, mul_one] at hnum
  exact ⟨hscale, hnum⟩

/-- what becomes of a whole number -/
theorem toJson_of_whole {d : Decimal} {i : Int} (h : d.value = i) :
    d.toJson = if fitsInt64 i then .integer i else .double d.normalize.toDouble := by
  obtain ⟨hscale, hnum⟩ := normalize_of_whole h
  simp only [toJson, hscale, hnum, true_and]

end Decimal

/-! ## Texts -/

namespace Json

theorem integerChars_eq (i : Int) : integerChars i = (toString i).toList := by
  unfold integerChars
  cases i with
  | ofNat n =>
    rw [if_neg (by simp)]
    exact Nat.toList_repr.symm
  | negSucc n =>
    rw [if_pos (Int.negSucc_lt_zero n), Int.natAbs_negSucc]
    show _ = ("-" ++ (n + 1).repr).toList
    rw [String.toList_append, Nat.toList_repr]
    rfl

theorem isDigit_of_mem_integerChars {i : Int} {c : Char} (h : c ∈ integerChars i) : c = '-' ∨ c.isDigit = true := by
  have hdigit : ∀ n, c ∈ Nat.toDigits 10 n → c.isDigit = true := fun n =>
    Nat.isDigit_of_mem_toDigits (by omega) (by omega)
  unfold integerChars at h
  split at h
  · exact (List.mem_cons.1 h).imp_right (hdigit _)
  · exact .inr (hdigit _ h)

/-- digits are laid out with a point or with an exponent -/
theorem layout_marked (digits : List Char) (exponent : Int) :
    '.' ∈ layout digits exponent ∨ 'e' ∈ layout digits exponent := by
  unfold layout
  split
  · split <;> simp
  · simp

/-- **A double shows that it is one** by a point or an exponent. -/
theorem point_or_exponent (x : Float) : '.' ∈ doubleChars x ∨ 'e' ∈ doubleChars x := by
  unfold doubleChars
  extract_lets bits magnitude text
  have hunsigned : '.' ∈ text ∨ 'e' ∈ text := by
    by_cases hzero : magnitude = 0
    · simp [text, hzero]
    · simp only [text, hzero, if_false]
      exact layout_marked _ _
  split
  · exact hunsigned.imp (List.mem_cons_of_mem _) (List.mem_cons_of_mem _)
  · exact hunsigned

theorem doubleChars_ne_integerChars (x : Float) (i : Int) : doubleChars x ≠ integerChars i := by
  intro h
  have hmark := point_or_exponent x
  rw [h] at hmark
  rcases hmark with hpoint | hexponent
  · exact absurd (isDigit_of_mem_integerChars hpoint) (by decide)
  · exact absurd (isDigit_of_mem_integerChars hexponent) (by decide)

@[simp] theorem text_integer (l : Layout) (i : Int) : (integer i).text l = toString i := by
  rw [text, write, List.append_nil, integerChars_eq, String.ofList_toList]

/-- a double has not the text of an integer -/
theorem text_double_ne (l : Layout) (x : Float) (i : Int) : (double x).text l ≠ toString i := by
  rw [text, write, List.append_nil]
  intro h
  have := congrArg String.toList h
  rw [String.toList_ofList, ← integerChars_eq] at this
  exact doubleChars_ne_integerChars x i this

end Json

/-! ## Values among others -/

/-- values have no parts, so they are written alike on every level and before every text -/
theorem write_value (l : Json.Layout) (level : Nat) (v : Value) (tail : List Char) :
    Json.write l level v.toJson tail = (v.toJson.text l).toList ++ tail := by
  rw [Json.text, String.toList_ofList]
  cases v with
  | number d =>
    rw [Value.toJson, Decimal.toJson]
    split <;> simp [Json.write]
  | _ => simp [Value.toJson, Json.write]

/-- further values follow after commas -/
theorem write_values (level : Nat) (v : Value) (vs : List Value) (tail : List Char) :
    Json.write .compact level v.toJson (Json.writeItems .compact level (vs.map Value.toJson) tail) =
      [','].intercalate ((v :: vs).map fun v => v.toJson.compact.toList) ++ tail := by
  induction vs generalizing v with
  | nil => simp [write_value, Json.writeItems, Json.compact]
  | cons w vs ih =>
    rw [List.map_cons, Json.writeItems, ih, write_value, List.map_cons, List.map_cons, List.map_cons,
      List.intercalate_cons_cons]
    simp [Json.Layout.compact, Json.compact]

/-- **Values in an array** have the texts that they have alone. -/
theorem renderValues_json (vs : List Value) :
    renderValues true vs = "[" ++ ",".intercalate (vs.map fun v => v.toJson.compact) ++ "]" := by
  have hparts : Json.write .compact 0 (.array (vs.map Value.toJson)) [] =
      '[' :: [','].intercalate (vs.map fun v => v.toJson.compact.toList) ++ [']'] := by
    cases vs with
    | nil => rfl
    | cons v vs => exact congrArg ('[' :: ·) (write_values 1 v vs [']'])
  rw [← String.toList_inj, renderValues, if_pos rfl, Json.compact, Json.text, hparts]
  simp [String.toList_intercalate, Function.comp_def]

/-! ## Whole numbers -/

theorem fitsInt64_iff (i : Int) : fitsInt64 i = true ↔ -2 ^ 63 ≤ i ∧ i < 2 ^ 63 := by
  simp only [fitsInt64, Bool.and_eq_true, decide_eq_true_eq]
  omega

/-- **Whole numbers that fit 64 bits are written exactly.** A number whose value is the integer `i`, at any scale, has
the text of `i` in every layout if and only if `i` is in the range of signed integers of 64 bits. If it is, then the
number also has this text among the values of a program, wherever it stands. -/
theorem whole_number_text {d : Decimal} {i : Int} (h : d.value = i) :
    (∀ l : Json.Layout, (Value.number d).toJson.text l = toString i ↔ -2 ^ 63 ≤ i ∧ i < 2 ^ 63) ∧
      (-2 ^ 63 ≤ i ∧ i < 2 ^ 63 → ∀ (level : Level) (source : String) (before after : List Value),
        ((Session.new level).evalSource source).1 = .ok (before ++ .number d :: after) →
          runProgram level true source = .ok ("[" ++ ",".intercalate (before.map (fun v => v.toJson.compact) ++
            toString i :: after.map fun v => v.toJson.compact) ++ "]")) := by
  have htext : ∀ l : Json.Layout, (Value.number d).toJson.text l = toString i ↔ -2 ^ 63 ≤ i ∧ i < 2 ^ 63 := by
    intro l
    rw [Value.toJson, Decimal.toJson_of_whole h, ← fitsInt64_iff]
    cases hfits : fitsInt64 i with
    | true => simp
    | false => simpa using Json.text_double_ne l d.normalize.toDouble i
  refine ⟨htext, ?_⟩
  intro hfits level source before after hrun
  have hone : (Value.number d).toJson.compact = toString i := (htext .compact).2 hfits
  rw [runProgram, hrun]
  simp only [renderValues_json, List.map_append, List.map_cons, hone]

/-- the least integer of 64 bits, with a fraction digit that it does not need, and after another value -/
theorem least_integer_text :
    let d : Decimal := ⟨true, 92233720368547758080, 1, by decide, by decide⟩
    let negated : Decimal := ⟨true, 9223372036854775808, 0, by decide, by decide⟩
    let source := "\"a\"\n-9223372036854775808"
    d.value = (-9223372036854775808 : Int) ∧ (Value.number d).toJson.compact = "-9223372036854775808" ∧
      negated.value = (-9223372036854775808 : Int) ∧
      ((Session.new .basic).evalSource source).1 = .ok ([.string "a"] ++ .number negated :: []) ∧
      runProgram .basic true source = .ok "[\"a\",-9223372036854775808]" := by
  intro d negated source
  have hd : d.value = (-9223372036854775808 : Int) := by
    rw [Decimal.value, div_eq_iff (by norm_num)]
    norm_cast
  have hnegated : negated.value = (-9223372036854775808 : Int) := by
    norm_num [Decimal.value, Decimal.numerator, negated]
  have hrun : ((Session.new .basic).evalSource source).1 = .ok ([.string "a"] ++ .number negated :: []) := by cbv
  refine ⟨hd, ((whole_number_text hd).1 .compact).2 (by decide), hnegated, hrun, ?_⟩
  exact (whole_number_text hnegated).2 (by decide) .basic source [.string "a"] [] hrun

/-- **Not all whole numbers are written exactly**: from `2^63` on a number is a double, alone and in the array of the
values of a program. -/
theorem two_to_the_63_inexact :
    (¬ ∀ (d : Decimal) (i : Int), d.value = i → (Value.number d).toJson.compact = toString i) ∧
      runProgram .basic true "9223372036854775808" = .ok "[9.223372036854776e+18]" := by
  constructor
  · intro hall
    let d : Decimal := ⟨false, 9223372036854775808, 0, by decide, by decide⟩
    have hd : d.value = (9223372036854775808 : Int) := by norm_num [Decimal.value, Decimal.numerator, d]
    have hdouble : d.toJson = .double d.normalize.toDouble := Decimal.toJson_of_whole hd
    have htext := hall d 9223372036854775808 hd
    rw [Value.toJson, hdouble] at htext
    exact Json.text_double_ne .compact d.normalize.toDouble _ htext
  · decide +kernel

end Stone
