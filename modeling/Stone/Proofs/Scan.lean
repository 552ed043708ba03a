/-
Scanning, step by step. A line is blanks and items; `scanRest_blank`, `scanRest_end` and `scanRest_item` say what one
step of the scanner does, whatever the text, and the other results of this module never open it again.

- `ofSource_scanned`: which lexemes a source can have. Numbers are whole and without a sign, identifiers are words, double
  marks or single marks, and no token is the end of input.
- `scanRest_mapLine`, `scanAll_shifted`: the number of a line goes into its tokens and nowhere else.
-/
import Stone.Proofs.Lines

namespace Stone

open Text TokenStream

/-! ## One step -/

section Steps

variable {line width : Nat} {cs rest after : List Char} {c : Char} {item : Item}

theorem scanRest_eq (line width : Nat) (cs : List Char) :
    scanRest line width cs =
      match cs.dropWhile isBlank with
      | [] => .ok [Token.lineEnd line]
      | c :: rest =>
        match Item.next? c rest with
        | none => .error (.badToken line (width - rest.length))
        | some (item, after) => do
          let first ← item.tokens line
          let others ← scanRest line width after
          return first ++ others := by
  rw [scanRest]
  split
  · rename_i h
    simp only [h]
  · rename_i h
    simp only [h]
    split
    · rename_i hn
      simp only [hn]
    · rename_i hn
      simp only [hn]

/-- white space before an item or the end does not matter -/
theorem scanRest_blank (h : isBlank c = true) : scanRest line width (c :: cs) = scanRest line width cs := by
  have hd : (c :: cs).dropWhile isBlank = cs.dropWhile isBlank := by rw [List.dropWhile_cons, if_pos h]
  rw [scanRest_eq, hd, ← scanRest_eq]

theorem scanRest_nil : scanRest line width [] = .ok [Token.lineEnd line] := by
  rw [scanRest_eq]
  rfl

theorem scanRest_item (hc : isBlank c = false) (hn : Item.next? c rest = some (item, after)) :
    scanRest line width (c :: rest) = (do
      let first ← item.tokens line
      let others ← scanRest line width after
      return first ++ others) := by
  have hd : (c :: rest).dropWhile isBlank = c :: rest := by rw [List.dropWhile_cons, if_neg (by simp [hc])]
  rw [scanRest_eq, hd]
  simp only [hn]

end Steps

/-! ## The lexemes of lines -/

/-- what an identifier can be: a word, or a mark of one or two characters -/
inductive Spelling : List Char → Prop
  | word {c : Char} {cs : List Char} : isWordStart c = true → (∀ d ∈ cs, isWordPart d = true) → Spelling (c :: cs)
  | double {c d : Char} : (c, d) ∈ Item.doubleMarks → Spelling [c, d]
  | single {c : Char} : isPunctuation c = true → Spelling [c]

/-- what a line can have -/
def Lexeme.Scanned : Lexeme → Prop
  | .number d => d.negative = false ∧ d.scale = 0
  | .string _ => True
  | .identifier s => Spelling s.toList
  | .lineEnd => True
  | .inputEnd => False

/-- a token of a line -/
def Token.Scanned (t : Token) : Prop := t.lexeme.Scanned

/-- digits without a point have no scale -/
theorem readDigits_scale {begun : Bool} {coefficient : Nat} {run : List Char} {parts : Nat × Nat}
    (hd : ∀ c ∈ run, isDecimalDigit c = true) (h : Decimal.readDigits false begun coefficient 0 run = some parts) :
    parts.2 = 0 := by
  induction run generalizing begun coefficient with
  | nil =>
    rw [Decimal.readDigits] at h
    split at h
    · cases h; rfl
    · cases h
  | cons c cs ih =>
    have hc := hd c List.mem_cons_self
    rw [Decimal.readDigits] at h
    split at h
    · rename_i hp; subst hp; cases hc
    · split at h
      · rename_i hu; subst hu; cases hc
      · split at h
        · cases h
        · simp only [Bool.false_and, Bool.not_false, if_true] at h
          split at h
          · cases h
          · exact ih (fun d hm => hd d (List.mem_cons_of_mem c hm)) h

/-- a digit run is a whole number without a sign -/
theorem readPlain_whole {run : List Char} {d : Decimal} (hd : ∀ c ∈ run, isDecimalDigit c = true)
    (h : Decimal.readPlain? run = some d) : d.negative = false ∧ d.scale = 0 := by
  have hp : ∀ cs, run = '-' :: cs ∨ run = '+' :: cs → False := by
    intro cs hcs
    rcases hcs with rfl | rfl <;> exact absurd (hd _ List.mem_cons_self) (by decide)
  unfold Decimal.readPlain? at h
  split at h
  · exact (hp _ (.inl rfl)).elim
  · exact (hp _ (.inr rfl)).elim
  · obtain ⟨parts, hr, ho⟩ := Option.bind_eq_some_iff.1 h
    have hs := readDigits_scale hd hr
    unfold Decimal.ofRead Decimal.ofParts? at ho
    split at ho
    · cases ho
      exact ⟨rfl, hs⟩
    · cases ho

/-- what the items of lines are made of -/
def Item.WellSpelled : Item → Prop
  | .digits run => ∀ c ∈ run, isDecimalDigit c = true
  | .spelled text => Spelling text
  | _ => True

theorem mark_wellSpelled {c : Char} {rest : List Char} {r : Item × List Char} (h : Item.mark? c rest = some r) :
    r.1.WellSpelled := by
  unfold Item.mark? at h
  split at h
  · split at h
    · rename_i hd; cases h; exact .double hd
    · split at h
      · rename_i hp; cases h; exact .single hp
      · cases h
  · split at h
    · rename_i hp; cases h; exact .single hp
    · cases h

theorem next_wellSpelled {c : Char} {rest : List Char} {r : Item × List Char} (h : Item.next? c rest = some r) :
    r.1.WellSpelled := by
  unfold Item.next? at h
  split at h
  · cases h; trivial
  · split at h
    · rename_i hc
      cases h
      intro d hd
      rcases List.mem_cons.1 hd with rfl | hd
      · exact hc
      · exact List.all_eq_true.1 List.all_takeWhile d hd
    · split at h
      · rename_i hc
        cases h
        exact .word hc fun d hd => List.all_eq_true.1 List.all_takeWhile d hd
      · split at h
        · split at h
          · cases h; trivial
          · exact mark_wellSpelled h
        · exact mark_wellSpelled h

theorem tokens_scanned {item : Item} {line : Nat} {ts : List Token} (hi : item.WellSpelled)
    (h : item.tokens line = .ok ts) : ∀ t ∈ ts, t.Scanned := by
  cases item with
  | comment => cases h; simp
  | digits run =>
    simp only [Item.tokens] at h
    split at h
    · rename_i d hd
      cases h
      intro t ht
      obtain rfl := List.mem_singleton.1 ht
      exact readPlain_whole hi hd
    · cases h
  | quoted enclosed =>
    cases h
    intro t ht
    obtain rfl := List.mem_singleton.1 ht
    trivial
  | spelled text =>
    cases h
    intro t ht
    obtain rfl := List.mem_singleton.1 ht
    show Spelling (String.ofList text).toList
    rw [String.toList_ofList]
    exact hi

/-- **Lines have tokens of lines.** -/
theorem scanRest_scanned (line width : Nat) (cs : List Char) :
    ∀ ts, scanRest line width cs = .ok ts → ∀ t ∈ ts, t.Scanned := by
  fun_induction scanRest line width cs with
  | case1 cs hd =>
    intro ts h t ht
    cases h
    obtain rfl := List.mem_singleton.1 ht
    trivial
  | case2 cs c rest hd hn => intro ts h; cases h
  | case3 cs c rest hd item after hn ih =>
    intro ts h
    cases hi : item.tokens line with
    | error e => rw [hi] at h; cases h
    | ok first =>
      cases ho : scanRest line width after with
      | error e => rw [hi, ho] at h; cases h
      | ok others =>
        rw [hi, ho] at h
        cases h
        intro t ht
        rcases List.mem_append.1 ht with ht | ht
        · exact tokens_scanned (next_wellSpelled hn) hi t ht
        · exact ih others ho t ht

/-- what the tokens of all lines are, those before the first error are -/
theorem forall_mem_sound {P : Token → Prop} {lines : List (Except ScanError (List Token))}
    (h : ∀ line ∈ lines, ∀ ts, line = .ok ts → ∀ t ∈ ts, P t) : ∀ t ∈ sound lines, P t := by
  induction lines with
  | nil => intro t ht; cases ht
  | cons line more ih =>
    cases line with
    | error e => intro t ht; cases ht
    | ok ts =>
      intro t ht
      rcases List.mem_append.1 ht with ht | ht
      · exact h _ List.mem_cons_self ts rfl t ht
      · exact ih (fun l hl => h l (List.mem_cons_of_mem _ hl)) t ht

theorem scanAll_scanned (texts : List (List Char)) (first : Nat) :
    ∀ line ∈ scanAll first texts, ∀ ts, line = .ok ts → ∀ t ∈ ts, t.Scanned := by
  induction texts generalizing first with
  | nil => intro line hl; cases hl
  | cons cs more ih =>
    intro line hl
    rcases List.mem_cons.1 hl with rfl | hl
    · exact scanRest_scanned first cs.length cs
    · exact ih (first + 1) line hl

/-- **Sources have tokens of lines.** -/
theorem ofSource_scanned (source : String) : ∀ t ∈ (ofSource source).tokens, t.Scanned :=
  forall_mem_sound (scanAll_scanned (Text.lines source.toList) 1)

/-- no token of a line is the end of input -/
theorem Token.Scanned.not_inputEnd {t : Token} (h : t.Scanned) : t.isInputEnd = false := by
  obtain ⟨line, x⟩ := t
  cases x with
  | inputEnd => exact h.elim
  | _ => rfl

/-! ## Line numbers -/

theorem tokens_mapLine {item : Item} {line : Nat} {ts : List Token} (f : Nat → Nat) (h : item.tokens line = .ok ts) :
    item.tokens (f line) = .ok (ts.map (Token.mapLine f)) := by
  cases item with
  | comment => cases h; rfl
  | digits run =>
    simp only [Item.tokens] at h ⊢
    split at h
    · cases h; rfl
    · cases h
  | quoted enclosed => cases h; rfl
  | spelled text => cases h; rfl

/-- **The number of a line goes into its tokens and nowhere else.** -/
theorem scanRest_mapLine {line width : Nat} {cs : List Char} {ts : List Token} (f : Nat → Nat) (width' : Nat)
    (h : scanRest line width cs = .ok ts) : scanRest (f line) width' cs = .ok (ts.map (Token.mapLine f)) := by
  fun_induction scanRest line width cs generalizing ts with
  | case1 cs hd =>
    cases h
    rw [scanRest_eq, hd]
    rfl
  | case2 cs c rest hd hn => cases h
  | case3 cs c rest hd item after hn ih =>
    cases hi : item.tokens line with
    | error e => rw [hi] at h; cases h
    | ok first =>
      cases ho : scanRest line width after with
      | error e => rw [hi, ho] at h; cases h
      | ok others =>
        rw [hi, ho] at h
        cases h
        rw [scanRest_eq, hd]
        simp only [hn, tokens_mapLine f hi, ih ho]
        rw [List.map_append]
        rfl

/-- lines that come later have the same tokens with later numbers -/
theorem scanAll_shifted {texts : List (List Char)} {first k : Nat}
    (h : ∀ line ∈ scanAll (first + k) texts, ∃ ts, line = .ok ts) :
    (∀ line ∈ scanAll first texts, ∃ ts, line = .ok ts) ∧
      sound (scanAll (first + k) texts) = (sound (scanAll first texts)).map (Token.mapLine (· + k)) := by
  induction texts generalizing first with
  | nil => exact ⟨h, rfl⟩
  | cons cs more ih =>
    obtain ⟨ts, hts⟩ := h _ List.mem_cons_self
    have hfirst : scanLine first cs = .ok (ts.map (Token.mapLine fun _ => first)) :=
      scanRest_mapLine (fun _ => first) _ hts
    have hlater : scanLine (first + k) cs = .ok ((ts.map (Token.mapLine fun _ => first)).map (Token.mapLine (· + k))) :=
      scanRest_mapLine (· + k) _ hfirst
    have hmore : ∀ line ∈ scanAll (first + 1 + k) more, ∃ ts, line = .ok ts := by
      rw [Nat.add_right_comm]
      exact fun line hl => h line (List.mem_cons_of_mem _ hl)
    obtain ⟨hclean, hsound⟩ := ih hmore
    rw [Nat.add_right_comm] at hsound
    refine ⟨fun line hl => ?_, ?_⟩
    · rcases List.mem_cons.1 hl with rfl | hl
      · exact ⟨_, hfirst⟩
      · exact hclean line hl
    · rw [scanAll, scanAll, hlater, hfirst, sound, sound, hsound, List.map_append]

/-! ## The lines of a text -/

theorem pieces_append {cs : List Char} (h : '\n' ∉ cs) (rest : List Char) :
    pieces (cs ++ '\n' :: rest) = (cs, (pieces rest).1 :: (pieces rest).2) := by
  induction cs with
  | nil => rfl
  | cons c cs ih =>
    obtain ⟨hc, hcs⟩ : '\n' ≠ c ∧ '\n' ∉ cs := by simpa using h
    have hstep : pieces (c :: cs ++ '\n' :: rest) =
        if c = '\n' then ([], (pieces (cs ++ '\n' :: rest)).1 :: (pieces (cs ++ '\n' :: rest)).2)
        else (c :: (pieces (cs ++ '\n' :: rest)).1, (pieces (cs ++ '\n' :: rest)).2) := rfl
    rw [hstep, if_neg (Ne.symm hc), ih hcs]

/-- a line that is ended -/
theorem lines_append {cs : List Char} (h : '\n' ∉ cs) (rest : List Char) :
    Text.lines (cs ++ '\n' :: rest) = withoutReturn cs :: Text.lines rest := by
  rw [Text.lines, pieces_append h]
  rfl

end Stone
