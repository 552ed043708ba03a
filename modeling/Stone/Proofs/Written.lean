/-
Written text, scanned again. What follows a lexeme decides where it ends, so the text of a tree is cut into pieces that
scan by themselves whenever something harmless follows: a blank, a parenthesis, a comma, a semicolon or the end. A lone
quote that stands as a name is the exception. It scans as a mark only if no other quote follows on its line.

- `number_writes`, `string_writes`, `identifier_writes`: the text of one lexeme scans as this lexeme.
- `Writes.append`, `Writes.space`, `Writes.solid`: so do pieces that are put together.
-/
import Stone.Node.Source
import Stone.Proofs.Numerals
import Stone.Proofs.WellFormed

namespace Stone

open Text

/-! ## Characters -/

/-- a character after which every lexeme is at its end -/
def isBound (c : Char) : Bool := c == ' ' || c == '(' || c == ')' || c == ',' || c == ';'

/-- the text ends or goes on with a bound -/
def Bounded (cs : List Char) : Prop := ∀ c, cs.head? = some c → isBound c = true

theorem bounded_nil : Bounded [] := nofun

theorem bounded_cons {c : Char} {cs : List Char} (h : isBound c = true) : Bounded (c :: cs) := by
  intro d hd
  cases hd
  exact h

theorem Bounded.append {cs ds : List Char} (hc : Bounded cs) (hd : Bounded ds) : Bounded (cs ++ ds) := by
  cases cs with
  | nil => exact hd
  | cons c cs => exact bounded_cons (hc c rfl)

/-- bounds are in no class of characters that goes on with a lexeme -/
theorem bound_class {c : Char} (h : isBound c = true) :
    isDecimalDigit c = false ∧ isWordPart c = false ∧ c ≠ '/' ∧ ∀ d, (d, c) ∉ Item.doubleMarks := by
  simp only [isBound, Bool.or_eq_true, beq_iff_eq] at h
  rcases h with (((rfl | rfl) | rfl) | rfl) | rfl <;> refine ⟨by decide, by decide, by decide, fun d hd => ?_⟩ <;>
    simp [Item.doubleMarks] at hd

/-- a run that is as long as it can be -/
theorem takeWhile_run {p : Char → Bool} {cs rest : List Char} (hc : ∀ c ∈ cs, p c = true)
    (hr : ∀ c, rest.head? = some c → p c = false) :
    (cs ++ rest).takeWhile p = cs ∧ (cs ++ rest).dropWhile p = rest := by
  have hstop : rest.takeWhile p = [] ∧ rest.dropWhile p = rest := by
    cases rest with
    | nil => exact ⟨rfl, rfl⟩
    | cons c rest =>
      have := hr c rfl
      simp [this]
  rw [List.takeWhile_append_of_pos hc, List.dropWhile_append_of_pos hc, hstop.1, hstop.2, List.append_nil]
  exact ⟨rfl, rfl⟩

/-- what holds of the ASCII characters one by one holds of all of them -/
theorem ascii_forall {p : Char → Bool} (h : (List.range 128).all (fun n => p (Char.ofNat n)) = true) {c : Char}
    (hc : c.toNat < 128) : p c = true := by
  have := List.all_eq_true.1 h c.toNat (List.mem_range.2 hc)
  rwa [Char.ofNat_toNat] at this

theorem ascii_of_isDigit {c : Char} (h : c.isDigit = true) : c.toNat < 128 := by
  simp only [Char.isDigit, Bool.and_eq_true, decide_eq_true_eq, UInt32.le_iff_toNat_le] at h
  have hc : c.toNat = c.val.toNat := rfl
  have h9 : '9'.val.toNat = 57 := rfl
  omega

theorem ascii_of_isAlpha {c : Char} (h : c.isAlpha = true) : c.toNat < 128 := by
  simp only [Char.isAlpha, Char.isUpper, Char.isLower, Bool.or_eq_true, Bool.and_eq_true, decide_eq_true_eq,
    UInt32.le_iff_toNat_le] at h
  have hc : c.toNat = c.val.toNat := rfl
  have hZ : 'Z'.val.toNat = 90 := rfl
  have hz : 'z'.val.toNat = 122 := rfl
  omega

theorem ascii_of_isWordPart {c : Char} (h : isWordPart c = true) : c.toNat < 128 := by
  simp only [isWordPart, Char.isAlphanum, Bool.or_eq_true, beq_iff_eq] at h
  rcases h with (h | h) | rfl
  · exact ascii_of_isAlpha h
  · exact ascii_of_isDigit h
  · decide

theorem ascii_of_isPunctuation {c : Char} (h : isPunctuation c = true) : c.toNat < 128 := by
  simp only [isPunctuation, inRanges, List.any_cons, List.any_nil, Bool.or_false, Bool.or_eq_true, Bool.and_eq_true,
    decide_eq_true_eq] at h
  omega

theorem wordStart_part {c : Char} (h : isWordStart c = true) : isWordPart c = true := by
  simp only [isWordStart, isWordPart, Char.isAlphanum, Bool.or_eq_true] at h ⊢
  rcases h with h | h
  · exact .inl (.inl h)
  · exact .inr h

theorem wordStart_class {c : Char} (h : isWordStart c = true) :
    isBlank c = false ∧ isDecimalDigit c = false ∧ c ≠ '/' := by
  have hall := ascii_forall
    (p := fun c => !isWordStart c || (!isBlank c && !isDecimalDigit c && c != '/')) (by decide)
    (ascii_of_isWordPart (wordStart_part h))
  simpa [h, and_assoc] using hall

/-- what is in one of some ranges is in none of others, if no two of them meet -/
theorem inRanges_apart {rs qs : List (Nat × Nat)} (h : rs.all fun r => qs.all fun q => r.2 < q.1 || q.2 < r.1) {c : Char}
    (hc : inRanges rs c = true) : inRanges qs c = false := by
  unfold inRanges at *
  obtain ⟨r, hr, hin⟩ := List.any_eq_true.1 hc
  refine List.any_eq_false.2 fun q hq => ?_
  have := List.all_eq_true.1 (List.all_eq_true.1 h r hr) q hq
  simp only [Bool.and_eq_true, Bool.or_eq_true, decide_eq_true_eq] at *
  omega

theorem digit_class {c : Char} (h : isDecimalDigit c = true) : isBlank c = false := by
  simp only [isDecimalDigit, Bool.or_eq_true, Bool.and_eq_true] at h
  rcases h with h | h
  · exact Decimal.digit_not_blank h
  · exact inRanges_apart (by decide) h.2

theorem punctuation_class {c : Char} (h : isPunctuation c = true) : isBlank c = false ∧ isDecimalDigit c = false := by
  have hall := ascii_forall (p := fun c => !isPunctuation c || (!isBlank c && !isDecimalDigit c)) (by decide)
    (ascii_of_isPunctuation h)
  simpa [h] using hall

theorem doubleMark_class {c d : Char} (h : (c, d) ∈ Item.doubleMarks) :
    isPunctuation c = true ∧ isPunctuation d = true ∧ isWordStart c = false ∧ c ≠ '/' ∧ c ≠ '"' := by
  simp only [Item.doubleMarks, List.mem_cons, Prod.mk.injEq, List.not_mem_nil, or_false] at h
  rcases h with ⟨rfl, rfl⟩ | ⟨rfl, rfl⟩ | ⟨rfl, rfl⟩ | ⟨rfl, rfl⟩ | ⟨rfl, rfl⟩ | ⟨rfl, rfl⟩ <;> decide

/-! ## Pieces of a line -/

/-- lexemes of a line in front of what is left of it -/
def ahead (line : Nat) (ls : List Lexeme) (r : Except ScanError (List Token)) : Except ScanError (List Token) :=
  r.map (ls.map (Token.mk line) ++ ·)

@[simp] theorem ahead_nil (line : Nat) (r : Except ScanError (List Token)) : ahead line [] r = r := by
  cases r <;> rfl

theorem ahead_append (line : Nat) (ls ms : List Lexeme) (r : Except ScanError (List Token)) :
    ahead line (ls ++ ms) r = ahead line ls (ahead line ms r) := by
  cases r with
  | error e => rfl
  | ok ts => simp [ahead, Except.map]

theorem scanRest_one {line width : Nat} {c : Char} {rest after : List Char} {item : Item} {x : Lexeme}
    (hc : isBlank c = false) (hn : Item.next? c rest = some (item, after))
    (ht : item.tokens line = .ok [⟨line, x⟩]) :
    scanRest line width (c :: rest) = ahead line [x] (scanRest line width after) := by
  rw [scanRest_item hc hn, ht]
  cases scanRest line width after <;> rfl

/-- a single mark, if it opens no comment, no literal and no double mark -/
theorem next_mark {c : Char} {rest : List Char} (hp : isPunctuation c = true) (hw : isWordStart c = false)
    (hq : c ≠ '"' ∨ Literal.split rest = none) (hc : c = '/' → rest.head? ≠ some '/')
    (hd : ∀ d, rest.head? = some d → (c, d) ∉ Item.doubleMarks) :
    Item.next? c rest = some (.spelled [c], rest) := by
  have hdigit := (punctuation_class hp).2
  have hmark : Item.mark? c rest = some (.spelled [c], rest) := by
    cases rest with
    | nil => rw [Item.mark?, if_pos hp]
    | cons d rest => rw [Item.mark?, if_neg (hd d rfl), if_pos hp]
  rw [Item.next?, if_neg (fun h => hc h.1 h.2), if_neg (by simp [hdigit]), if_neg (by simp [hw]), hmark]
  rcases hq with hq | hq
  · rw [if_neg hq]
  · rw [hq]
    exact ite_self _

/-- a digit run, which goes on as long as it can -/
theorem next_digits {c : Char} {cs rest : List Char} (hc : isDecimalDigit c = true)
    (hcs : ∀ d ∈ cs, isDecimalDigit d = true) (hr : ∀ d, rest.head? = some d → isDecimalDigit d = false) :
    Item.next? c (cs ++ rest) = some (.digits (c :: cs), rest) := by
  obtain ⟨htake, hdrop⟩ := takeWhile_run hcs hr
  have hslash : c ≠ '/' := by
    rintro rfl
    cases hc
  rw [Item.next?, if_neg (fun h => hslash h.1), if_pos hc, htake, hdrop]

/-- a word, which goes on as long as it can -/
theorem next_word {c : Char} {cs rest : List Char} (hc : isWordStart c = true) (hcs : ∀ d ∈ cs, isWordPart d = true)
    (hr : ∀ d, rest.head? = some d → isWordPart d = false) :
    Item.next? c (cs ++ rest) = some (.spelled (c :: cs), rest) := by
  obtain ⟨-, hdigit, hslash⟩ := wordStart_class hc
  obtain ⟨htake, hdrop⟩ := takeWhile_run hcs hr
  rw [Item.next?, if_neg (fun h => hslash h.1), if_neg (by simp [hdigit]), if_pos hc, htake, hdrop]

theorem next_double {c d : Char} (h : (c, d) ∈ Item.doubleMarks) (rest : List Char) :
    Item.next? c (d :: rest) = some (.spelled [c, d], rest) := by
  obtain ⟨hc, -, hw, hslash, hquote⟩ := doubleMark_class h
  rw [Item.next?, if_neg (fun h => hslash h.1), if_neg (by simp [(punctuation_class hc).2]), if_neg (by simp [hw]),
    if_neg hquote, Item.mark?, if_pos h]

/-- at a quote the scanner takes the literal if something closes it, and else the quote alone -/
theorem next_quote (rest : List Char) :
    Item.next? '"' rest =
      match Literal.split rest with
      | some (enclosed, after) => some (.quoted enclosed, after)
      | none => some (.spelled ['"'], rest) := by
  cases hs : Literal.split rest with
  | some p => rw [Item.next?, if_neg (by simp), if_neg (by decide), if_neg (by decide), if_pos rfl, hs]
  | none => exact next_mark (by decide) (by decide) (.inr hs) (by simp) (by simp [Item.doubleMarks])

/-- a lone quote, which is a name -/
def loneQuote : Lexeme := .identifier "\""

/-- is the lexeme written with quotes -/
def Lexeme.isQuoted : Lexeme → Bool
  | .string _ => true
  | .identifier s => s == "\""
  | _ => false

/-- no quotes come after a lone quote -/
def QuoteSafe (ls : List Lexeme) : Prop := ls.Pairwise fun a b => a = loneQuote → b.isQuoted = false

instance (ls : List Lexeme) : Decidable (QuoteSafe ls) :=
  inferInstanceAs (Decidable (ls.Pairwise fun a b => a = loneQuote → b.isQuoted = false))

/-- the text scans as these lexemes whenever a bound follows and no quote is there to close a lone one -/
structure Writes (cs : List Char) (ls : List Lexeme) : Prop where
  scan : QuoteSafe ls → ∀ line width rest, Bounded rest → (loneQuote ∈ ls → '"' ∉ rest) →
    scanRest line width (cs ++ rest) = ahead line ls (scanRest line width rest)
  quoted : '"' ∈ cs → ∃ x ∈ ls, x.isQuoted = true
  single : '\n' ∉ cs
  last : cs.getLast? ≠ some '\r'

namespace Writes

variable {cs ds : List Char} {ls ms : List Lexeme}

theorem nil : Writes [] [] := ⟨fun _ line _ _ _ _ => (ahead_nil line _).symm, nofun, nofun, nofun⟩

/-- pieces side by side; the second begins with a bound -/
theorem append (h1 : Writes cs ls) (h2 : Writes ds ms) (hb : Bounded ds) : Writes (cs ++ ds) (ls ++ ms) := by
  refine ⟨fun hs line width rest hr hq => ?_, fun h => ?_, fun h => ?_, ?_⟩
  · obtain ⟨hs1, hs2, hs12⟩ := List.pairwise_append.1 hs
    have hafter : loneQuote ∈ ls → '"' ∉ ds ++ rest := by
      intro hl hm
      rcases List.mem_append.1 hm with hm | hm
      · obtain ⟨x, hx, hxq⟩ := h2.quoted hm
        rw [hs12 _ hl x hx rfl] at hxq
        cases hxq
      · exact hq (List.mem_append_left _ hl) hm
    rw [List.append_assoc, h1.scan hs1 line width _ (hb.append hr) hafter,
      h2.scan hs2 line width rest hr fun hl => hq (List.mem_append_right _ hl), ahead_append]
  · rcases List.mem_append.1 h with h | h
    · obtain ⟨x, hx, hxq⟩ := h1.quoted h
      exact ⟨x, List.mem_append_left _ hx, hxq⟩
    · obtain ⟨x, hx, hxq⟩ := h2.quoted h
      exact ⟨x, List.mem_append_right _ hx, hxq⟩
  · rcases List.mem_append.1 h with h | h
    · exact h1.single h
    · exact h2.single h
  · rw [List.getLast?_append]
    cases hd : ds.getLast? with
    | none => exact h1.last
    | some d => simpa [hd] using h2.last

/-- a blank before a piece -/
theorem space (h : Writes cs ls) : Writes (' ' :: cs) ls := by
  refine ⟨fun hs line width rest hr hq => ?_, fun hm => ?_, fun hm => ?_, ?_⟩
  · rw [List.cons_append, scanRest_blank (by decide)]
    exact h.scan hs line width rest hr hq
  · rcases List.mem_cons.1 hm with hm | hm
    · cases hm
    · exact h.quoted hm
  · rcases List.mem_cons.1 hm with hm | hm
    · cases hm
    · exact h.single hm
  · cases cs with
    | nil => decide
    | cons c cs => exact h.last

/-- the marks that stand for themselves whatever follows -/
def isSolid (c : Char) : Bool := c == '(' || c == ')' || c == ',' || c == ';' || c == '-' || c == '\x7b' || c == '\x7d'

theorem next_solid {c : Char} (h : isSolid c = true) (rest : List Char) :
    isBlank c = false ∧ Item.next? c rest = some (.spelled [c], rest) := by
  simp only [isSolid, Bool.or_eq_true, beq_iff_eq] at h
  rcases h with (((((rfl | rfl) | rfl) | rfl) | rfl) | rfl) | rfl <;>
    refine ⟨by decide, next_mark (by decide) (by decide) (.inl (by decide)) nofun fun d _ => ?_⟩ <;>
    simp [Item.doubleMarks]

/-- a mark that stands for itself before a piece -/
theorem solid {c : Char} {s : String} (hs : s.toList = [c]) (hc : isSolid c = true) (h : Writes cs ls) :
    Writes (c :: cs) (.identifier s :: ls) := by
  have hne : c ≠ '"' ∧ c ≠ '\n' ∧ c ≠ '\r' := by
    refine ⟨?_, ?_, ?_⟩ <;> rintro rfl <;> exact absurd hc (by decide)
  refine ⟨fun hsafe line width rest hr hq => ?_, fun hm => ?_, fun hm => ?_, ?_⟩
  · obtain ⟨hb, hn⟩ := next_solid hc (cs ++ rest)
    have ht : (Item.spelled [c]).tokens line = .ok [⟨line, .identifier s⟩] := by
      rw [Item.tokens, ← hs, String.ofList_toList]
      rfl
    rw [List.cons_append, scanRest_one hb hn ht,
      h.scan (List.pairwise_cons.1 hsafe).2 line width rest hr fun hl => hq (List.mem_cons_of_mem _ hl),
      ← ahead_append, List.singleton_append]
  · rcases List.mem_cons.1 hm with hm | hm
    · exact absurd hm.symm hne.1
    · obtain ⟨x, hx, hxq⟩ := h.quoted hm
      exact ⟨x, List.mem_cons_of_mem _ hx, hxq⟩
  · rcases List.mem_cons.1 hm with hm | hm
    · exact absurd hm.symm hne.2.1
    · exact h.single hm
  · cases cs with
    | nil => simpa using hne.2.2
    | cons d ds => exact h.last

end Writes

/-! ## Numbers -/

theorem digits_whole {d : Decimal} (hn : d.negative = false) (hs : d.scale = 0) :
    d.digits = Nat.toDigits 10 d.coefficient := by
  have hpos : 0 < (Nat.toDigits 10 d.coefficient).length := Nat.length_toDigits_pos
  have hpad : 0 + 1 - (Nat.toDigits 10 d.coefficient).length = 0 := by omega
  rw [Decimal.digits, hn, Decimal.unsignedDigits, hs]
  simp only [Bool.false_eq_true, if_false, if_true, List.leftpad]
  rw [hpad]
  rfl

theorem getLast?_ne {cs : List Char} {d : Char} (h : d ∉ cs) : cs.getLast? ≠ some d :=
  fun hl => h (List.mem_of_getLast? hl)

theorem number_writes {d : Decimal} (hn : d.negative = false) (hs : d.scale = 0) :
    Writes d.text.toList [.number d] := by
  have hall : ∀ c ∈ d.digits, c.isDigit = true := by
    rw [digits_whole hn hs]
    exact fun c hc => Nat.isDigit_of_mem_toDigits (by omega) (by omega) hc
  have hnot : ∀ c : Char, c.isDigit = false → c ∉ d.digits := by
    intro c hc hm
    rw [hall c hm] at hc
    cases hc
  have htext : d.text.toList = d.digits := by rw [Decimal.text, String.toList_ofList]
  rw [htext]
  refine ⟨fun _ line width rest hr _ => ?_, fun h => absurd h (hnot '"' (by decide)), hnot '\n' (by decide),
    getLast?_ne (hnot '\r' (by decide))⟩
  have hread := Decimal.readPlain_digits fun _ => hn
  cases hd : d.digits with
  | nil =>
    rw [digits_whole hn hs] at hd
    exact absurd hd Nat.toDigits_ne_nil
  | cons c cs =>
    rw [hd] at hall hread
    obtain ⟨hc, hcs⟩ := List.forall_mem_cons.1 hall
    have hdigit : ∀ c : Char, c.isDigit = true → isDecimalDigit c = true := fun c h => by simp [isDecimalDigit, h]
    have hnext : Item.next? c (cs ++ rest) = some (.digits (c :: cs), rest) :=
      next_digits (hdigit c hc) (fun c h => hdigit c (hcs c h)) fun c h => (bound_class (hr c h)).1
    rw [List.cons_append, scanRest_one (digit_class (hdigit c hc)) hnext]
    simp only [Item.tokens, hread]
    rfl

/-! ## Strings -/

/-- a written character is an escape pair or a character that needs none -/
theorem writeChar_cases (c : Char) :
    (∃ e, Literal.isEscaped e = true ∧ Literal.writeChar c = ['\\', e] ∧
      ∀ rest, Literal.contents ('\\' :: e :: rest) = c :: Literal.contents rest) ∨
    c ≠ '"' ∧ c ≠ '\\' ∧ c ≠ '\n' ∧ Literal.writeChar c = [c] := by
  by_cases hq : c = '"'
  · exact .inl ⟨'"', rfl, by subst hq; rfl, fun rest => by subst hq; rw [Literal.contents]⟩
  by_cases hb : c = '\\'
  · exact .inl ⟨'\\', rfl, by subst hb; rfl, fun rest => by subst hb; rw [Literal.contents]⟩
  by_cases hn : c = '\n'
  · exact .inl ⟨'n', rfl, by subst hn; rfl, fun rest => by subst hn; rw [Literal.contents]⟩
  · refine .inr ⟨hq, hb, hn, ?_⟩
    rw [Literal.writeChar] <;> simpa

theorem splitAtFree_written (cs rest : List Char) :
    Literal.splitAtFree (cs.flatMap Literal.writeChar ++ '"' :: rest) = some (cs.flatMap Literal.writeChar, rest) := by
  induction cs with
  | nil => rw [List.flatMap_nil, List.nil_append, Literal.splitAtFree]
  | cons c cs ih =>
    rw [List.flatMap_cons, List.append_assoc]
    rcases writeChar_cases c with ⟨e, he, hw, -⟩ | ⟨hq, hb, -, hw⟩
    · rw [hw]
      simp only [List.cons_append, List.nil_append]
      rw [Literal.splitAtFree, if_pos he, ih]
      rfl
    · rw [hw]
      simp only [List.cons_append, List.nil_append]
      rw [Literal.splitAtFree, ih]
      · rfl
      · simpa using hq
      · intro _ _ h _
        exact hb h

theorem contents_written (cs : List Char) : Literal.contents (cs.flatMap Literal.writeChar) = cs := by
  induction cs with
  | nil => rw [List.flatMap_nil, Literal.contents]
  | cons c cs ih =>
    rw [List.flatMap_cons]
    rcases writeChar_cases c with ⟨e, -, hw, hc⟩ | ⟨-, hb, -, hw⟩
    · rw [hw]
      exact (hc _).trans (congrArg (c :: ·) ih)
    · rw [hw, List.singleton_append, Literal.contents, ih] <;> intro _ h <;> exact absurd h hb

theorem newline_not_written (cs : List Char) : '\n' ∉ cs.flatMap Literal.writeChar := by
  intro h
  obtain ⟨c, -, hc⟩ := List.mem_flatMap.1 h
  rcases writeChar_cases c with ⟨e, he, hw, -⟩ | ⟨-, -, hn, hw⟩
  · rw [hw] at hc
    simp only [List.mem_cons, List.not_mem_nil, or_false] at hc
    rcases hc with hc | rfl
    · cases hc
    · cases he
  · rw [hw] at hc
    exact hn (List.mem_singleton.1 hc).symm

theorem string_writes (s : String) : Writes (Literal.write s.toList) [.string s] := by
  have hsplit : ∀ rest, Literal.split (s.toList.flatMap Literal.writeChar ++ '"' :: rest) =
      some (s.toList.flatMap Literal.writeChar, rest) := by
    intro rest
    rw [Literal.split, splitAtFree_written]
  refine ⟨fun _ line width rest _ _ => ?_, fun _ => ⟨_, List.mem_cons_self, rfl⟩, ?_, ?_⟩
  · have hnext : Item.next? '"' (s.toList.flatMap Literal.writeChar ++ '"' :: rest) =
        some (.quoted (s.toList.flatMap Literal.writeChar), rest) := by
      rw [next_quote, hsplit]
    have htext : Literal.write s.toList ++ rest = '"' :: (s.toList.flatMap Literal.writeChar ++ '"' :: rest) := by
      simp [Literal.write]
    rw [htext, scanRest_one (by decide) hnext]
    rw [Item.tokens, contents_written, String.ofList_toList]
    rfl
  · intro h
    rw [Literal.write, List.cons_append, List.mem_cons, List.mem_append, List.mem_singleton] at h
    rcases h with h | h | h
    · cases h
    · exact newline_not_written _ h
    · cases h
  · rw [Literal.write, List.getLast?_concat]
    decide

/-! ## Identifiers -/

theorem word_writes {s : String} {c : Char} {cs : List Char} (hs : s.toList = c :: cs) (hc : isWordStart c = true)
    (hcs : ∀ d ∈ cs, isWordPart d = true) : Writes s.toList [.identifier s] := by
  have hall : ∀ d ∈ s.toList, isWordPart d = true := by
    rw [hs]
    exact List.forall_mem_cons.2 ⟨wordStart_part hc, hcs⟩
  have hnot : ∀ d : Char, isWordPart d = false → d ∉ s.toList := by
    intro d hd hm
    rw [hall d hm] at hd
    cases hd
  refine ⟨fun _ line width rest hr _ => ?_, fun h => absurd h (hnot '"' (by decide)), hnot '\n' (by decide),
    getLast?_ne (hnot '\r' (by decide))⟩
  have hnext : Item.next? c (cs ++ rest) = some (.spelled (c :: cs), rest) :=
    next_word hc hcs fun c h => (bound_class (hr c h)).2.1
  rw [hs, List.cons_append, scanRest_one (wordStart_class hc).1 hnext]
  rw [Item.tokens, ← hs, String.ofList_toList]
  rfl

/-- marks are made of punctuation -/
theorem mark_text {s : String} (h : ∀ c ∈ s.toList, isPunctuation c = true) :
    '\n' ∉ s.toList ∧ s.toList.getLast? ≠ some '\r' := by
  have hnot : ∀ d : Char, isPunctuation d = false → d ∉ s.toList := by
    intro d hd hm
    rw [h d hm] at hd
    cases hd
  exact ⟨hnot '\n' (by decide), getLast?_ne (hnot '\r' (by decide))⟩

theorem double_writes {s : String} {c d : Char} (hs : s.toList = [c, d]) (h : (c, d) ∈ Item.doubleMarks) :
    Writes s.toList [.identifier s] := by
  obtain ⟨hc, hd, -, -, hquote⟩ := doubleMark_class h
  have hall : ∀ e ∈ s.toList, isPunctuation e = true := by
    rw [hs]
    exact List.forall_mem_cons.2 ⟨hc, List.forall_mem_cons.2 ⟨hd, nofun⟩⟩
  refine ⟨fun _ line width rest hr _ => ?_, fun hm => ?_, (mark_text hall).1, (mark_text hall).2⟩
  · rw [hs]
    simp only [List.cons_append, List.nil_append]
    rw [scanRest_one (punctuation_class hc).1 (next_double h rest)]
    rw [Item.tokens, ← hs, String.ofList_toList]
    rfl
  · rw [hs] at hm
    simp only [List.mem_cons, List.not_mem_nil, or_false] at hm
    rcases hm with rfl | rfl
    · exact absurd rfl hquote
    · simp [Item.doubleMarks] at h

theorem splitAtLast_none {cs : List Char} (h : '"' ∉ cs) : Literal.splitAtLast cs = none := by
  induction cs with
  | nil => rfl
  | cons c cs ih =>
    obtain ⟨hc, hcs⟩ : '"' ≠ c ∧ '"' ∉ cs := by simpa using h
    rw [Literal.splitAtLast, ih hcs]
    exact if_neg (Ne.symm hc)

theorem splitAtFree_none {cs : List Char} (h : '"' ∉ cs) : Literal.splitAtFree cs = none := by
  fun_induction Literal.splitAtFree cs with
  | case1 => rfl
  | case2 rest => exact absurd List.mem_cons_self h
  | case3 c rest _ ih =>
    rw [ih fun hm => h (List.mem_cons_of_mem _ (List.mem_cons_of_mem _ hm))]
    rfl
  | case4 c rest _ ih =>
    rw [ih fun hm => h (List.mem_cons_of_mem _ hm)]
    rfl
  | case5 c rest _ _ ih =>
    rw [ih fun hm => h (List.mem_cons_of_mem _ hm)]
    rfl

/-- nothing closes a quote on a line without another -/
theorem split_none {rest : List Char} (h : '"' ∉ rest) : Literal.split rest = none := by
  rw [Literal.split, splitAtFree_none h]
  exact splitAtLast_none h

theorem single_writes {s : String} {c : Char} (hs : s.toList = [c]) (hc : isPunctuation c = true)
    (hw : isWordStart c = false) : Writes s.toList [.identifier s] := by
  have hall : ∀ e ∈ s.toList, isPunctuation e = true := by
    rw [hs]
    exact List.forall_mem_cons.2 ⟨hc, nofun⟩
  have hlone : c = '"' → Lexeme.identifier s = loneQuote := by
    rintro rfl
    rw [loneQuote, ← String.ofList_toList (s := s), hs]
  refine ⟨fun _ line width rest hr hq => ?_, fun hm => ?_, (mark_text hall).1, (mark_text hall).2⟩
  · have hsplit : c ≠ '"' ∨ Literal.split rest = none := by
      by_cases hcq : c = '"'
      · exact .inr (split_none (hq (hlone hcq ▸ List.mem_cons_self)))
      · exact .inl hcq
    have hnext : Item.next? c rest = some (.spelled [c], rest) :=
      next_mark hc hw hsplit (fun _ h => (bound_class (hr '/' h)).2.2.1 rfl)
        fun d hd => (bound_class (hr d hd)).2.2.2 c
    rw [hs, List.singleton_append, scanRest_one (punctuation_class hc).1 hnext]
    rw [Item.tokens, ← hs, String.ofList_toList]
    rfl
  · rw [hs] at hm
    refine ⟨_, List.mem_cons_self, ?_⟩
    rw [hlone (List.mem_singleton.1 hm).symm]
    rfl

/-- every identifier of a line scans back -/
theorem identifier_writes {s : String} (h : Spelling s.toList) : Writes s.toList [.identifier s] := by
  generalize hs : s.toList = cs at h
  rw [← hs]
  cases h with
  | word hc hcs => exact word_writes hs hc hcs
  | double hd => exact double_writes hs hd
  | @single c hc =>
    by_cases hw : isWordStart c = true
    · exact word_writes hs hw nofun
    · exact single_writes hs hc (by simpa using hw)

end Stone
