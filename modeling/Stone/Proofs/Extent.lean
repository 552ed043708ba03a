/-
Where string literals end, and what they say. The text after an opening quote is taken apart from left to right into
escape pairs and single characters (`Literal.parts`). `Literal.Encloses` says by these parts what the quote encloses.

- `split_eq_some_iff`, `split_eq_none_iff`: the scanner finds what a quote encloses, and nothing closes a quote after
  which no other stands on the line.
- `contents_eq`: the text of a literal is what its parts mean.
- `literal_scanned`: so wherever the scanner meets a quote at the start of an item, its token and where it goes on are
  as the parts say.
-/
import Stone.Proofs.Written

namespace Stone

open Text

/-! ## Parts of a literal -/

namespace Literal

/-- what the text of a literal is made of -/
inductive Part where
  /-- a backslash and what it escapes -/
  | pair (escaped : Char)
  | single (c : Char)
deriving DecidableEq

/-- the part as it is written -/
def Part.written : Part → List Char
  | pair c => ['\\', c]
  | single c => [c]

/-- the character that the part stands for -/
def Part.meaning : Part → Char
  | pair 'n' => '\n'
  | pair c => c
  | single c => c

/-- the parts of a text: pairs are taken from left to right, and no character is in two of them -/
def parts : List Char → List Part
  | [] => []
  | '\\' :: c :: rest => if isEscaped c then .pair c :: parts rest else .single '\\' :: parts (c :: rest)
  | c :: rest => .single c :: parts rest

/-- `enclosed` stands between a quote with `text` after it and the quote that closes it, and `after` follows that one -/
inductive Encloses (text enclosed after : List Char) : Prop
  /-- the first quote that is in no pair closes -/
  | free (place : text = enclosed ++ '"' :: after) (split : parts text = parts enclosed ++ .single '"' :: parts after)
      (first : .single '"' ∉ parts enclosed) : Encloses text enclosed after
  /-- if all are in pairs, the last of them closes -/
  | last (paired : .single '"' ∉ parts text) (place : text = enclosed ++ '"' :: after) (last : '"' ∉ after) :
      Encloses text enclosed after

section Parts

variable {c : Char} {rest text enclosed after : List Char}

theorem parts_pair (h : isEscaped c = true) : parts ('\\' :: c :: rest) = .pair c :: parts rest := by
  rw [parts, if_pos h]

/-- a character that opens no pair -/
theorem parts_single (h : c = '\\' → ∀ d, rest.head? = some d → isEscaped d = false) :
    parts (c :: rest) = .single c :: parts rest := by
  by_cases hc : c = '\\'
  · subst hc
    cases rest with
    | nil => rfl
    | cons d rest => rw [parts, if_neg (by simp [h rfl d rfl])]
  · rw [parts]
    intro d more hd _
    exact hc hd

/-- parts are written as the text that they are parts of -/
theorem flatMap_written (text : List Char) : (parts text).flatMap Part.written = text := by
  fun_induction parts text with
  | case1 => rfl
  | case2 c rest _ ih => rw [List.flatMap_cons, ih]; rfl
  | case3 c rest _ ih => rw [List.flatMap_cons, ih]; rfl
  | case4 c rest _ ih => rw [List.flatMap_cons, ih]; rfl

theorem parts_injective : Function.Injective parts :=
  Function.LeftInverse.injective flatMap_written

/-- **The text of a literal is what its parts mean**, one character each. -/
theorem contents_eq (text : List Char) : contents text = (parts text).map Part.meaning := by
  fun_induction parts text with
  | case1 => rw [contents, List.map_nil]
  | case2 c rest he ih =>
    rw [List.map_cons, ← ih]
    simp only [isEscaped, Bool.or_eq_true, beq_iff_eq] at he
    rcases he with (rfl | rfl) | rfl <;> rw [contents] <;> rfl
  | case3 c rest he ih =>
    rw [List.map_cons, ← ih, contents]
    · rfl
    all_goals
      intro more _ hm
      cases hm
      exact he rfl
  | case4 c rest hpair ih =>
    rw [List.map_cons, ← ih, contents]
    · rfl
    all_goals
      intro more hc hm
      exact (hpair _ _ hc hm).elim

/-! ## The quote that closes -/

/-- the first quote that is in no pair -/
theorem splitAtFree_some {p : List Char × List Char} (h : splitAtFree text = some p) :
    text = p.1 ++ '"' :: p.2 ∧ parts text = parts p.1 ++ .single '"' :: parts p.2 ∧ .single '"' ∉ parts p.1 := by
  fun_induction splitAtFree text generalizing p with
  | case1 => cases h
  | case2 rest =>
    cases h
    exact ⟨rfl, parts_single (by simp), List.not_mem_nil⟩
  | case3 c rest he ih =>
    obtain ⟨q, hq, rfl⟩ := Option.map_eq_some_iff.1 h
    obtain ⟨hplace, hsplit, hfirst⟩ := ih hq
    refine ⟨by rw [hplace]; rfl, ?_, ?_⟩
    · rw [parts_pair he, parts_pair he, hsplit]
      rfl
    · rw [parts_pair he]
      simpa using hfirst
  | case4 c rest he ih =>
    obtain ⟨q, hq, rfl⟩ := Option.map_eq_some_iff.1 h
    obtain ⟨hplace, hsplit, hfirst⟩ := ih hq
    have hwhole : parts ('\\' :: c :: rest) = .single '\\' :: parts (c :: rest) :=
      parts_single fun _ d hd => by cases hd; simpa using he
    have hbefore : parts ('\\' :: q.1) = .single '\\' :: parts q.1 := by
      refine parts_single fun _ d hd => ?_
      obtain ⟨more, hmore⟩ := List.head?_eq_some_iff.1 hd
      rw [hmore, List.cons_append, List.cons.injEq] at hplace
      simpa [← hplace.1] using he
    refine ⟨by rw [hplace]; rfl, ?_, ?_⟩
    · rw [hwhole, hbefore, hsplit]
      rfl
    · rw [hbefore]
      simpa using hfirst
  | case5 c rest hquote hpair ih =>
    obtain ⟨q, hq, rfl⟩ := Option.map_eq_some_iff.1 h
    obtain ⟨hplace, hsplit, hfirst⟩ := ih hq
    have hwhole : parts (c :: rest) = .single c :: parts rest :=
      parts_single fun hc d hd => (hpair d _ hc (List.head?_eq_some_iff.1 hd).choose_spec).elim
    have hbefore : parts (c :: q.1) = .single c :: parts q.1 := by
      refine parts_single fun hc => ?_
      cases rest with
      | nil => cases hq
      | cons d rest => exact (hpair d rest hc rfl).elim
    refine ⟨by rw [hplace]; rfl, ?_, ?_⟩
    · rw [hwhole, hbefore, hsplit]
      rfl
    · rw [hbefore]
      simpa [eq_comm] using ⟨hquote, hfirst⟩

theorem splitAtFree_eq_none (h : splitAtFree text = none) : .single '"' ∉ parts text := by
  fun_induction splitAtFree text with
  | case1 => exact List.not_mem_nil
  | case2 rest => cases h
  | case3 c rest he ih =>
    rw [parts_pair he]
    simpa using ih (Option.map_eq_none_iff.1 h)
  | case4 c rest he ih =>
    rw [parts_single fun _ d hd => by cases hd; simpa using he]
    simpa using ih (Option.map_eq_none_iff.1 h)
  | case5 c rest hquote hpair ih =>
    rw [parts_single fun hc d hd => (hpair d _ hc (List.head?_eq_some_iff.1 hd).choose_spec).elim]
    simpa [eq_comm] using ⟨hquote, ih (Option.map_eq_none_iff.1 h)⟩

theorem splitAtLast_isSome (h : '"' ∈ text) : (splitAtLast text).isSome = true := by
  induction text with
  | nil => cases h
  | cons c rest ih =>
    rw [splitAtLast]
    cases hr : splitAtLast rest with
    | some p => rfl
    | none =>
      rcases List.mem_cons.1 h with rfl | h
      · rfl
      · rw [hr] at ih
        cases ih h

/-- the last quote -/
theorem splitAtLast_some {p : List Char × List Char} (h : splitAtLast text = some p) :
    text = p.1 ++ '"' :: p.2 ∧ '"' ∉ p.2 := by
  induction text generalizing p with
  | nil => cases h
  | cons c rest ih =>
    rw [splitAtLast] at h
    cases hr : splitAtLast rest with
    | some q =>
      rw [hr] at h
      cases h
      obtain ⟨hplace, hlast⟩ := ih hr
      exact ⟨congrArg (c :: ·) hplace, hlast⟩
    | none =>
      simp only [hr, Option.ite_none_right_eq_some, Option.some.injEq] at h
      obtain ⟨rfl, rfl⟩ := h
      refine ⟨rfl, fun hm => ?_⟩
      have := splitAtLast_isSome hm
      rw [hr] at this
      cases this

/-- a list has one place before which, or one place after which, there is no `x` -/
theorem cut_unique {α : Type} {x : α} {as bs cs ds : List α} (h : as ++ x :: bs = cs ++ x :: ds)
    (hn : x ∉ as ∧ x ∉ cs ∨ x ∉ bs ∧ x ∉ ds) : as = cs ∧ bs = ds := by
  rcases List.append_eq_append_iff.1 h with ⟨more, rfl, hm⟩ | ⟨more, rfl, hm⟩ <;> cases more <;> simp_all

/-- **What a quote encloses is found**, and nothing else. -/
theorem split_eq_some_iff : split text = some (enclosed, after) ↔ Encloses text enclosed after := by
  constructor
  · intro h
    rw [split] at h
    cases hf : splitAtFree text with
    | some p =>
      rw [hf] at h
      cases h
      obtain ⟨hplace, hsplit, hfirst⟩ := splitAtFree_some hf
      exact .free hplace hsplit hfirst
    | none =>
      rw [hf] at h
      obtain ⟨hplace, hlast⟩ := splitAtLast_some h
      exact .last (splitAtFree_eq_none hf) hplace hlast
  · intro h
    cases h with
    | free hplace hsplit hfirst =>
      cases hf : splitAtFree text with
      | none => exact absurd (by rw [hsplit]; simp) (splitAtFree_eq_none hf)
      | some p =>
        obtain ⟨-, hsplit', hfirst'⟩ := splitAtFree_some hf
        obtain ⟨hbefore, hafter⟩ := cut_unique (hsplit.symm.trans hsplit') (.inl ⟨hfirst, hfirst'⟩)
        rw [split, hf, parts_injective hbefore, parts_injective hafter]
    | last hpaired hplace hlast =>
      have hf : splitAtFree text = none := by
        cases hf : splitAtFree text with
        | none => rfl
        | some p =>
          obtain ⟨-, hsplit, -⟩ := splitAtFree_some hf
          exact absurd (by rw [hsplit]; simp) hpaired
      have hquote : '"' ∈ text := by
        rw [hplace]
        simp
      obtain ⟨p, hp⟩ := Option.isSome_iff_exists.1 (splitAtLast_isSome hquote)
      obtain ⟨hplace', hlast'⟩ := splitAtLast_some hp
      obtain ⟨rfl, rfl⟩ := cut_unique (hplace.symm.trans hplace') (.inr ⟨hlast, hlast'⟩)
      rw [split, hf]
      exact hp

/-- **Nothing closes a quote** on a line without another. -/
theorem split_eq_none_iff : split text = none ↔ '"' ∉ text := by
  refine ⟨fun h hm => ?_, split_none⟩
  rw [split] at h
  have hlast := splitAtLast_isSome hm
  cases hf : splitAtFree text with
  | some p => rw [hf] at h; cases h
  | none =>
    rw [hf] at h
    simp only at h
    rw [h] at hlast
    cases hlast

/-- a quote that is in a pair comes after a backslash, which its literal keeps -/
theorem backslash_kept (h : .single '"' ∉ parts (enclosed ++ '"' :: after)) :
    ∃ kept, enclosed = kept ++ ['\\'] ∧ parts enclosed = parts kept ++ [.single '\\'] := by
  fun_induction parts enclosed with
  | case1 => exact absurd (by rw [List.nil_append, parts_single (by simp)]; simp) h
  | case2 c rest he ih =>
    rw [List.cons_append, List.cons_append, parts_pair he] at h
    obtain ⟨kept, hkept, hparts⟩ := ih fun hm => h (List.mem_cons_of_mem _ hm)
    exact ⟨'\\' :: c :: kept, by rw [hkept]; rfl, by rw [hparts, parts_pair he]; rfl⟩
  | case3 c rest he ih =>
    have hone : ∀ d, c = d → isEscaped d = false := by
      rintro d rfl
      simpa using he
    have hwhole : parts ('\\' :: (c :: rest ++ '"' :: after)) = .single '\\' :: parts (c :: rest ++ '"' :: after) :=
      parts_single fun _ d hd => hone d (Option.some.inj hd)
    rw [List.cons_append, hwhole] at h
    obtain ⟨kept, hkept, hparts⟩ := ih fun hm => h (List.mem_cons_of_mem _ hm)
    have hbefore : parts ('\\' :: kept) = .single '\\' :: parts kept := by
      refine parts_single fun _ d hd => ?_
      obtain ⟨more, rfl⟩ := List.head?_eq_some_iff.1 hd
      exact hone d (List.cons.inj hkept).1
    exact ⟨'\\' :: kept, by rw [hkept]; rfl, by rw [hparts, hbefore]; rfl⟩
  | case4 c rest hpair ih =>
    by_cases hc : c = '\\'
    · -- the backslash before the closing quote
      obtain rfl : rest = [] := List.eq_nil_iff_forall_not_mem.2 fun d hd => by
        obtain ⟨e, more, rfl⟩ := List.exists_cons_of_ne_nil (List.ne_nil_of_mem hd)
        exact hpair e more hc rfl
      exact ⟨[], by rw [hc]; rfl, by rw [hc]; rfl⟩
    · have hone : ∀ cs, parts (c :: cs) = .single c :: parts cs := fun cs => parts_single fun h => absurd h hc
      rw [List.cons_append, hone] at h
      obtain ⟨kept, hkept, hparts⟩ := ih fun hm => h (List.mem_cons_of_mem _ hm)
      exact ⟨c :: kept, by rw [hkept]; rfl, by rw [hparts, hone]; rfl⟩

end Parts

end Literal

/-! ## The scanner at a quote -/

/-- scanning the line `cs`, the scanner comes to `rest` with the tokens `ts` -/
inductive Scans (line : Nat) (cs : List Char) : List Token → List Char → Prop
  | start : Scans line cs [] cs
  | blank {ts : List Token} {c : Char} {rest : List Char} :
      Scans line cs ts (c :: rest) → isBlank c = true → Scans line cs ts rest
  | item {ts first : List Token} {c : Char} {rest after : List Char} {item : Item} :
      Scans line cs ts (c :: rest) → isBlank c = false → Item.next? c rest = some (item, after) →
      item.tokens line = .ok first → Scans line cs (ts ++ first) after

/-- what is left is scanned the same way, and its tokens come last -/
theorem Scans.scanLine_eq {line : Nat} {cs rest : List Char} {ts : List Token} (h : Scans line cs ts rest) :
    scanLine line cs = (scanRest line cs.length rest).map (ts ++ ·) := by
  induction h with
  | start =>
    rw [scanLine]
    cases scanRest line cs.length cs <;> rfl
  | @item ts first c rest after item h hc hn ht ih =>
    rw [ih, scanRest_item hc hn, ht]
    cases scanRest line cs.length after with
    | error e => rfl
    | ok others => exact congrArg Except.ok (List.append_assoc ts first others).symm
  | blank h hc ih => rw [ih, scanRest_blank hc]

/-- **String literals.** Wherever the scanner of a line meets a quote at the start of an item, with `rest` after it, it
takes one token and goes on behind it. If a later quote is in no pair, the first such quote closes the literal. If all
later quotes are in pairs, the last of them does, and the backslash before it stays in the literal as itself. The text
of the literal is then what its parts mean. If there is no later quote, the token is the quote alone. -/
theorem literal_scanned {line : Nat} {cs rest : List Char} {ts : List Token} (h : Scans line cs ts ('"' :: rest)) :
    ∃ t after, Scans line cs (ts ++ [t]) after ∧
      scanLine line cs = (scanRest line cs.length after).map ((ts ++ [t]) ++ ·) ∧
      ((∃ enclosed, rest = enclosed ++ '"' :: after ∧
          Literal.parts rest = Literal.parts enclosed ++ .single '"' :: Literal.parts after ∧
          .single '"' ∉ Literal.parts enclosed ∧
          t = Token.string line (String.ofList ((Literal.parts enclosed).map Literal.Part.meaning))) ∨
        (∃ enclosed, rest = enclosed ++ '"' :: after ∧ .single '"' ∉ Literal.parts rest ∧ '"' ∉ after ∧
          (∃ kept, enclosed = kept ++ ['\\'] ∧ Literal.parts enclosed = Literal.parts kept ++ [.single '\\']) ∧
          t = Token.string line (String.ofList ((Literal.parts enclosed).map Literal.Part.meaning))) ∨
        '"' ∉ rest ∧ after = rest ∧ t = Token.identifier line "\"") := by
  have hnext := next_quote rest
  cases hs : Literal.split rest with
  | none =>
    rw [hs] at hnext
    have hscans := h.item (by decide) hnext rfl
    exact ⟨_, _, hscans, hscans.scanLine_eq, .inr (.inr ⟨Literal.split_eq_none_iff.1 hs, rfl, rfl⟩)⟩
  | some p =>
    obtain ⟨enclosed, after⟩ := p
    rw [hs] at hnext
    have hscans := h.item (by decide) hnext rfl
    rw [Literal.contents_eq] at hscans
    refine ⟨_, _, hscans, hscans.scanLine_eq, ?_⟩
    cases Literal.split_eq_some_iff.1 hs with
    | free hplace hsplit hfirst => exact .inl ⟨enclosed, hplace, hsplit, hfirst, rfl⟩
    | last hpaired hplace hlast =>
      have hkept := Literal.backslash_kept (hplace ▸ hpaired)
      exact .inr (.inl ⟨enclosed, hplace, hpaired, hlast, hkept, rfl⟩)

/-- a line on which the only later quote is escaped: it closes the literal, and two slashes in it are no comment -/
theorem literal_scanned_paired :
    Scans 1 ['x', ' ', '"', 'a', '/', '/', '\\', '"'] [Token.identifier 1 "x"] ['"', 'a', '/', '/', '\\', '"'] ∧
      ∃ t after, Scans 1 ['x', ' ', '"', 'a', '/', '/', '\\', '"'] [Token.identifier 1 "x", t] after ∧
        t = Token.string 1 "a//\\" ∧ after = [] := by
  have hscans : Scans 1 ['x', ' ', '"', 'a', '/', '/', '\\', '"'] [Token.identifier 1 "x"]
      ['"', 'a', '/', '/', '\\', '"'] := by
    have hword : Item.next? 'x' [' ', '"', 'a', '/', '/', '\\', '"'] =
        some (.spelled ['x'], [' ', '"', 'a', '/', '/', '\\', '"']) := by decide
    exact .blank (Scans.start.item (by decide) hword rfl) (by decide)
  refine ⟨hscans, ?_⟩
  obtain ⟨t, after, hafter, -, ⟨enclosed, -, hparts, -⟩ | ⟨enclosed, hplace, -, hlast, -, ht⟩ | ⟨hnone, -⟩⟩ :=
    literal_scanned hscans
  · have hpaired : .single '"' ∉ Literal.parts ['a', '/', '/', '\\', '"'] := by decide
    exact absurd (by rw [hparts]; simp) hpaired
  · have hopen : ['a', '/', '/', '\\'] ++ '"' :: [] = enclosed ++ '"' :: after := hplace
    obtain ⟨rfl, rfl⟩ := Literal.cut_unique hopen (.inr ⟨nofun, hlast⟩)
    exact ⟨t, [], hafter, ht, rfl⟩
  · exact absurd (by decide) hnone

end Stone
