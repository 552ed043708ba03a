/-
The tokens of a line as one pattern. A pattern is tried from left to right: of alternatives the first that leads to a
match is taken, a repetition goes on as long as it can, and what comes later may send it back. `Pattern.run` answers all
matches in the order in which they are preferred. The token pattern has groups for a token, a comment, a number, a
string literal and a word or mark, and a line is scanned by matching it again and again (`Matched`).

- `first?_literal`: the preferred literal ends where `Literal.split` says, among all the ways to read its backslashes.
- `first?_token`: the preferred match is the white space and the item that the scanner takes.
- `matched_iff`: so matching the pattern again and again comes to an end, with the answer of the scanner.
-/
import Stone.Proofs.Extent

namespace Stone

open Text

/-! ## Patterns -/

inductive Pattern where
  | nothing
  /-- one character of a class -/
  | one (p : Char → Bool)
  | seq (a b : Pattern)
  /-- the first, or else the second -/
  | alt (a b : Pattern)
  /-- as often as possible -/
  | star (a : Pattern)
  /-- remembers what is matched, under a number -/
  | group (n : Nat) (a : Pattern)

/-- a match: what has been taken, what was remembered, and what is left -/
structure Match where
  taken : List Char
  groups : List (Nat × List Char)
  rest : List Char
deriving DecidableEq

namespace Match

/-- nothing taken -/
def start (cs : List Char) : Match := ⟨[], [], cs⟩

/-- one match after another -/
def before (m n : Match) : Match := ⟨m.taken ++ n.taken, m.groups ++ n.groups, n.rest⟩

/-- what was remembered under a number -/
def group? (m : Match) (n : Nat) : Option (List Char) := m.groups.lookup n

end Match

namespace Pattern

/-- as often as there is a match that takes something, more before less -/
def repeated (step : List Char → List Match) (cs : List Char) : List Match :=
  ((step cs).flatMap fun m =>
    if _h : m.rest.length < cs.length then (repeated step m.rest).map m.before else []) ++ [.start cs]
termination_by cs.length

/-- all matches at the start of a text, the preferred ones first -/
def run : Pattern → List Char → List Match
  | nothing, cs => [.start cs]
  | one _, [] => []
  | one p, c :: rest => if p c then [⟨[c], [], rest⟩] else []
  | seq a b, cs => (a.run cs).flatMap fun m => (b.run m.rest).map m.before
  | alt a b, cs => a.run cs ++ b.run cs
  | star a, cs => repeated a.run cs
  | group n a, cs => (a.run cs).map fun m => { m with groups := (n, m.taken) :: m.groups }

/-- the match -/
def first? (a : Pattern) (cs : List Char) : Option Match := (a.run cs).head?

/-- the first of some patterns that leads to a match -/
def choice (ps : List Pattern) : Pattern := ps.foldr alt (one fun _ => false)

/-- a text as it is -/
def word (cs : List Char) : Pattern := cs.foldr (fun c => seq (one (· == c))) nothing

/-- at least once -/
def plus (a : Pattern) : Pattern := seq a (star a)

/-- a character of a literal, or an escape pair, which is tried first -/
def literalPart : Pattern := choice [word ['\\', '"'], word ['\\', '\\'], word ['\\', 'n'], one (· != '"')]

/-- what follows an opening quote, up to the closing one -/
def literalRest : Pattern := seq (star literalPart) (one (· == '"'))

/-- a word, or a mark of one or two characters -/
def spelling : Pattern :=
  choice (seq (one isWordStart) (star (one isWordPart)) ::
    Item.doubleMarks.map (fun m => word [m.1, m.2]) ++ [one isPunctuation])

def comment : Pattern := seq (word ['/', '/']) (star (one (· != '\n')))

/-- the items of a line -/
def item : Pattern :=
  choice [group 2 comment, group 3 (plus (one isDecimalDigit)), group 4 (seq (one (· == '"')) literalRest),
    group 5 spelling]

/-- white space and then an item, or else nothing -/
def token : Pattern := seq (star (one isBlank)) (alt (group 1 item) nothing)

end Pattern

/-! ## Preferred matches -/

namespace Match

@[simp] theorem start_before (cs : List Char) (m : Match) : (start cs).before m = m := rfl

theorem before_place {m n : Match} {cs : List Char} (hm : m.taken ++ m.rest = cs) (hn : n.taken ++ n.rest = m.rest) :
    (m.before n).taken ++ (m.before n).rest = cs := by
  rw [before, List.append_assoc, hn, hm]

theorem before_assoc (m n o : Match) : (m.before n).before o = m.before (n.before o) := by
  simp [before]

end Match

namespace Pattern

variable {a b : Pattern} {p : Char → Bool} {c : Char} {cs rest : List Char}

theorem repeated_place {step : List Char → List Match} (hs : ∀ cs, ∀ m ∈ step cs, m.taken ++ m.rest = cs)
    (cs : List Char) : ∀ m ∈ repeated step cs, m.taken ++ m.rest = cs := by
  fun_induction repeated step cs with
  | case1 cs ih =>
    intro m hm
    rcases List.mem_append.1 hm with hm | hm
    · obtain ⟨n, hn, hm⟩ := List.mem_flatMap.1 hm
      split at hm
      · rename_i hlt
        obtain ⟨o, ho, rfl⟩ := List.mem_map.1 hm
        exact Match.before_place (hs cs n hn) (ih n hlt o ho)
      · cases hm
    · obtain rfl := List.mem_singleton.1 hm
      rfl

/-- **A match is a place in the text**: what it has taken and what is left make up the text. -/
theorem run_place (a : Pattern) : ∀ cs, ∀ m ∈ a.run cs, m.taken ++ m.rest = cs := by
  induction a with
  | nothing =>
    intro cs m hm
    obtain rfl := List.mem_singleton.1 hm
    rfl
  | one p =>
    intro cs m hm
    cases cs with
    | nil => cases hm
    | cons c rest =>
      rw [run] at hm
      split at hm
      · obtain rfl := List.mem_singleton.1 hm
        rfl
      · cases hm
  | seq a b iha ihb =>
    intro cs m hm
    obtain ⟨n, hn, hm⟩ := List.mem_flatMap.1 hm
    obtain ⟨o, ho, rfl⟩ := List.mem_map.1 hm
    exact Match.before_place (iha cs n hn) (ihb n.rest o ho)
  | alt a b iha ihb =>
    intro cs m hm
    rcases List.mem_append.1 hm with hm | hm
    · exact iha cs m hm
    · exact ihb cs m hm
  | star a ih => exact repeated_place ih
  | group n a ih =>
    intro cs m hm
    obtain ⟨o, ho, rfl⟩ := List.mem_map.1 hm
    exact ih cs o ho

theorem first?_place {m : Match} (h : a.first? cs = some m) : m.taken ++ m.rest = cs :=
  a.run_place cs m (List.mem_of_head? h)

theorem first?_alt : (alt a b).first? cs = (a.first? cs).or (b.first? cs) := by
  rw [first?, run, List.head?_append]
  rfl

theorem first?_group {n : Nat} :
    (group n a).first? cs = (a.first? cs).map fun m => { m with groups := (n, m.taken) :: m.groups } := by
  rw [first?, run, List.head?_map]
  rfl

theorem first?_seq : (seq a b).first? cs = (a.run cs).findSome? fun m => (b.first? m.rest).map m.before := by
  simp only [first?, run, List.head?_flatMap, List.head?_map]

theorem first?_seq_of {m n : Match} (ha : a.first? cs = some m) (hb : b.first? m.rest = some n) :
    (seq a b).first? cs = some (m.before n) := by
  obtain ⟨more, hrun⟩ := List.head?_eq_some_iff.1 ha
  rw [first?_seq, hrun, List.findSome?_cons, hb]
  rfl

theorem run_choice (ps : List Pattern) (cs : List Char) : (choice ps).run cs = ps.flatMap fun a => a.run cs := by
  induction ps with
  | nil =>
    cases cs <;> rfl
  | cons a ps ih => rw [List.flatMap_cons, ← ih]; rfl

theorem first?_choice (ps : List Pattern) (cs : List Char) :
    (choice ps).first? cs = ps.findSome? fun a => a.first? cs := by
  rw [first?, run_choice, List.head?_flatMap]
  rfl

theorem first?_seq_one : (seq (one p) b).first? (c :: rest) =
    if p c then (b.first? rest).map (Match.mk [c] [] rest).before else none := by
  rw [first?_seq, run]
  split
  · rw [List.findSome?_singleton]
  · rfl

theorem run_word (text : List Char) : (word text).run (text ++ rest) = [⟨text, [], rest⟩] := by
  induction text with
  | nil => rfl
  | cons c text ih =>
    have hone : (one (· == c)).run (c :: (text ++ rest)) = [⟨[c], [], text ++ rest⟩] := by simp [run]
    have hword : word (c :: text) = seq (one (· == c)) (word text) := rfl
    rw [hword, run, List.cons_append, hone, List.flatMap_singleton, ih]
    rfl

/-- a text that is not there does not match -/
theorem run_word_nil {text : List Char} (h : ¬ text <+: cs) : (word text).run cs = [] := by
  induction text generalizing cs with
  | nil => exact absurd List.nil_prefix h
  | cons c text ih =>
    have hword : word (c :: text) = seq (one (· == c)) (word text) := rfl
    rw [hword, run]
    cases cs with
    | nil => rfl
    | cons d rest =>
      rw [run]
      by_cases hd : d = c
      · subst hd
        have hrest : ¬ text <+: rest := fun hp => h (List.prefix_cons_inj d |>.2 hp)
        simp [ih hrest]
      · simp [hd]

/-! Repetitions. -/

/-- a repetition of what always takes something -/
theorem run_star (h : ∀ m ∈ a.run cs, m.rest.length < cs.length) :
    (star a).run cs = ((a.run cs).flatMap fun m => ((star a).run m.rest).map m.before) ++ [.start cs] := by
  rw [run, repeated]
  congr 1
  refine List.flatMap_congr fun m hm => ?_
  rw [dif_pos (h m hm), run]

theorem first?_star_one (p : Char → Bool) (cs : List Char) :
    (star (one p)).first? cs = some ⟨cs.takeWhile p, [], cs.dropWhile p⟩ := by
  induction cs with
  | nil =>
    rw [first?, run_star fun m hm => by cases hm]
    rfl
  | cons c rest ih =>
    have htakes : ∀ m ∈ (one p).run (c :: rest), m.rest.length < (c :: rest).length := by
      intro m hm
      rw [run] at hm
      split at hm
      · obtain rfl := List.mem_singleton.1 hm
        simp
      · cases hm
    rw [first?, run_star htakes, run]
    by_cases hc : p c = true
    · rw [if_pos hc, List.flatMap_singleton, List.head?_append, List.head?_map, ← first?, ih]
      simp [hc, Match.before]
    · simp [hc, Match.start]

/-- a repetition, and what comes after it: go on, or else stop -/
theorem first?_star_seq (h : ∀ m ∈ a.run cs, m.rest.length < cs.length) :
    (seq (star a) b).first? cs =
      ((a.run cs).findSome? fun m => ((seq (star a) b).first? m.rest).map m.before).or (b.first? cs) := by
  have hrun : (seq (star a) b).run cs =
      ((a.run cs).flatMap fun m => ((seq (star a) b).run m.rest).map m.before) ++ b.run cs := by
    have hstart : (b.run cs).map (Match.start cs).before = b.run cs := List.map_id'' (Match.start_before cs) _
    rw [run, run_star h, List.flatMap_append, List.flatMap_assoc, List.flatMap_singleton]
    refine congr (congrArg _ (List.flatMap_congr fun m _ => ?_)) hstart
    rw [run, List.flatMap_map, List.map_flatMap]
    refine List.flatMap_congr fun n _ => ?_
    rw [List.map_map]
    exact List.map_congr_left fun o _ => Match.before_assoc m n o
  rw [first?, hrun, List.head?_append, List.head?_flatMap]
  simp only [List.head?_map]
  rfl

end Pattern

/-! ## Literals -/

namespace Literal

variable {c e : Char} {rest : List Char}

theorem split_quote (rest : List Char) : split ('"' :: rest) = some ([], rest) := by
  rw [split, splitAtFree]

/-- a pair is kept together if the literal can be closed behind it -/
theorem split_pair (h : isEscaped e = true) : split ('\\' :: e :: rest) =
    ((split rest).map fun q => ('\\' :: e :: q.1, q.2)).or ((split (e :: rest)).map fun q => ('\\' :: q.1, q.2)) := by
  have hfree : splitAtFree ('\\' :: e :: rest) = (splitAtFree rest).map fun q => ('\\' :: e :: q.1, q.2) := by
    rw [splitAtFree, if_pos h]
  cases hf : splitAtFree rest with
  | some q =>
    simp [split, hfree, hf]
  | none =>
    have hwhole : split ('\\' :: e :: rest) = splitAtLast ('\\' :: e :: rest) := by
      rw [split, hfree, hf]
      rfl
    have hrest : split rest = splitAtLast rest := by rw [split, hf]
    rw [hwhole, hrest, splitAtLast, splitAtLast]
    cases hl : splitAtLast rest with
    | some q => rfl
    | none =>
      by_cases he : e = '"'
      · subst he
        rw [split_quote]
        rfl
      · have hquote : '"' ∉ e :: rest := by
          have hn : '"' ∉ rest := split_eq_none_iff.1 (hrest.trans hl)
          simpa [eq_comm, he] using hn
        rw [split_none hquote]
        simp [he]

/-- any other character is taken as it is -/
theorem split_single (hc : c ≠ '"') (h : c = '\\' → ∀ d, rest.head? = some d → isEscaped d = false) :
    split (c :: rest) = (split rest).map fun q => (c :: q.1, q.2) := by
  have hfree : splitAtFree (c :: rest) = (splitAtFree rest).map fun q => (c :: q.1, q.2) := by
    by_cases hb : c = '\\'
    · subst hb
      cases rest with
      | nil => rfl
      | cons d rest => rw [splitAtFree, if_neg (by simp [h rfl d rfl])]
    · rw [splitAtFree]
      · exact hc
      · intro _ _ hm _
        exact hb hm
  rw [split, split, hfree]
  cases splitAtFree rest with
  | some q => rfl
  | none =>
    rw [splitAtLast]
    cases splitAtLast rest with
    | some q => rfl
    | none => simp [hc]

end Literal

namespace Pattern

variable {c e : Char} {rest : List Char}

theorem run_literalPart_pair (h : Literal.isEscaped e = true) :
    literalPart.run ('\\' :: e :: rest) = [⟨['\\', e], [], rest⟩, ⟨['\\'], [], e :: rest⟩] := by
  simp only [Literal.isEscaped, Bool.or_eq_true, beq_iff_eq] at h
  rcases h with (rfl | rfl) | rfl <;> simp [literalPart, choice, word, run, Match.before, Match.start]

theorem run_literalPart_single (hc : c ≠ '"')
    (h : c = '\\' → ∀ d, rest.head? = some d → Literal.isEscaped d = false) :
    literalPart.run (c :: rest) = [⟨[c], [], rest⟩] := by
  have hpair : ∀ d, Literal.isEscaped d = true → (word ['\\', d]).run (c :: rest) = [] := by
    intro d hd
    apply run_word_nil
    rintro ⟨more, hm⟩
    cases hm
    rw [h rfl d rfl] at hd
    cases hd
  have hlast : (one (· != '"')).run (c :: rest) = [⟨[c], [], rest⟩] := by simp [run, hc]
  rw [literalPart, run_choice, List.flatMap_cons, List.flatMap_cons, List.flatMap_cons, List.flatMap_singleton, hlast,
    hpair _ rfl, hpair _ rfl, hpair _ rfl]
  rfl

theorem run_literalPart_nil : literalPart.run [] = [] := by
  simp [literalPart, choice, word, run]

theorem run_literalPart_quote (rest : List Char) : literalPart.run ('"' :: rest) = [] := by
  simp [literalPart, choice, word, run]

/-- **The preferred literal** is the one that the scanner takes. -/
theorem first?_literalRest (cs : List Char) :
    literalRest.first? cs = (Literal.split cs).map fun q => ⟨q.1 ++ ['"'], [], q.2⟩ := by
  induction h : cs.length using Nat.strong_induction_on generalizing cs with
  | _ n ih =>
    subst h
    cases cs with
    | nil =>
      rw [literalRest, first?_star_seq (by rw [run_literalPart_nil]; simp), run_literalPart_nil]
      rfl
    | cons c rest =>
      by_cases hc : c = '"'
      · subst hc
        rw [literalRest, first?_star_seq (by rw [run_literalPart_quote]; simp), run_literalPart_quote,
          Literal.split_quote]
        rfl
      have hstop : (one (· == '"')).first? (c :: rest) = none := by simp [first?, run, hc]
      by_cases hp : c = '\\' ∧ ∃ d more, rest = d :: more ∧ Literal.isEscaped d = true
      · obtain ⟨rfl, e, rest, rfl, he⟩ := hp
        have hrun : literalPart.run (_ :: e :: rest) = _ := run_literalPart_pair he
        rw [literalRest, first?_star_seq (by rw [hrun]; simp), hrun, hstop, ← literalRest, Literal.split_pair he]
        simp only [List.findSome?_cons, List.findSome?_nil]
        rw [ih _ (by simp) rest rfl, ih _ (by simp) (e :: rest) rfl]
        cases Literal.split rest with
        | some q => rfl
        | none =>
          cases Literal.split (e :: rest) <;> rfl
      · have hsingle : c = '\\' → ∀ d, rest.head? = some d → Literal.isEscaped d = false := by
          intro hb d hd
          obtain ⟨more, rfl⟩ := List.head?_eq_some_iff.1 hd
          exact Bool.eq_false_iff.2 fun he => hp ⟨hb, d, more, rfl, he⟩
        have hrun := run_literalPart_single hc hsingle
        rw [literalRest, first?_star_seq (by rw [hrun]; simp), hrun, hstop, ← literalRest,
          Literal.split_single hc hsingle]
        simp only [List.findSome?_cons, List.findSome?_nil]
        rw [ih _ (by simp) rest rfl]
        cases Literal.split rest <;> rfl

end Pattern

/-! ## Items -/

namespace Item

/-- the item as it stands at the start of a text -/
def written (text : List Char) : Item → List Char
  | comment => text
  | digits run => run
  | quoted enclosed => '"' :: (enclosed ++ ['"'])
  | spelled text => text

/-- the group that remembers the item -/
def group : Item → Nat
  | comment => 2
  | digits _ => 3
  | quoted _ => 4
  | spelled _ => 5

/-- the item at the start of a text -/
def at? : List Char → Option (Item × List Char)
  | [] => none
  | c :: rest => next? c rest

end Item

namespace Pattern

variable {c : Char} {rest : List Char}

theorem first?_comment (hn : '\n' ∉ rest) :
    comment.first? (c :: rest) = if c = '/' ∧ rest.head? = some '/' then some ⟨c :: rest, [], []⟩ else none := by
  by_cases h : c = '/' ∧ rest.head? = some '/'
  · obtain ⟨rfl, hslash⟩ := h
    obtain ⟨more, rfl⟩ := List.head?_eq_some_iff.1 hslash
    have hslashes : (word ['/', '/']).first? ('/' :: '/' :: more) = some ⟨['/', '/'], [], more⟩ :=
      congrArg List.head? (run_word ['/', '/'])
    have hmore : ∀ d ∈ more, (d != '\n') = true := by
      intro d hd
      simp only [bne_iff_ne, ne_eq]
      rintro rfl
      exact hn (List.mem_cons_of_mem _ hd)
    have hstar := first?_star_one (· != '\n') more
    rw [List.takeWhile_eq_self_iff.2 hmore, List.dropWhile_eq_nil_iff.2 hmore] at hstar
    rw [if_pos ⟨rfl, rfl⟩, comment, first?_seq_of hslashes hstar]
    rfl
  · have hslashes : (word ['/', '/']).run (c :: rest) = [] := by
      apply run_word_nil
      rintro ⟨more, hm⟩
      cases hm
      exact h ⟨rfl, rfl⟩
    rw [if_neg h, comment, first?_seq, hslashes]
    rfl

theorem first?_digits : (plus (one isDecimalDigit)).first? (c :: rest) =
    if isDecimalDigit c then some ⟨c :: rest.takeWhile isDecimalDigit, [], rest.dropWhile isDecimalDigit⟩
    else none := by
  rw [plus, first?_seq_one, first?_star_one]
  rfl

theorem first?_quoted : (seq (one (· == '"')) literalRest).first? (c :: rest) =
    if c = '"' then (Literal.split rest).map fun q => ⟨'"' :: (q.1 ++ ['"']), [], q.2⟩ else none := by
  rw [first?_seq_one, first?_literalRest, Option.map_map]
  by_cases hc : c = '"'
  · subst hc
    rfl
  · rw [if_neg hc, if_neg (by simpa using hc)]

/-- one of some marks of two characters -/
theorem first?_marks (marks : List (Char × Char)) :
    (marks.map fun m => word [m.1, m.2]).findSome? (fun a => a.first? (c :: rest)) =
      match rest with
      | d :: after => if (c, d) ∈ marks then some ⟨[c, d], [], after⟩ else none
      | [] => none := by
  induction marks with
  | nil => cases rest <;> rfl
  | cons m marks ih =>
    rw [List.map_cons, List.findSome?_cons, ih]
    by_cases hm : [m.1, m.2] <+: c :: rest
    · obtain ⟨after, hafter⟩ := hm
      cases hafter
      have hfirst : (word [m.1, m.2]).first? (m.1 :: m.2 :: after) = some ⟨[m.1, m.2], [], after⟩ :=
        congrArg List.head? (run_word [m.1, m.2])
      simp [hfirst]
    · have hfirst : (word [m.1, m.2]).first? (c :: rest) = none := by rw [first?, run_word_nil hm]; rfl
      rw [hfirst]
      cases rest with
      | nil => rfl
      | cons d after =>
        have hne : (c, d) ≠ m := by
          rintro rfl
          exact hm ⟨after, rfl⟩
        simp [hne]

theorem first?_one {p : Char → Bool} : (one p).first? (c :: rest) = if p c then some ⟨[c], [], rest⟩ else none := by
  rw [first?, run]
  split <;> rfl

theorem first?_spelling : spelling.first? (c :: rest) =
    if isWordStart c then some ⟨c :: rest.takeWhile isWordPart, [], rest.dropWhile isWordPart⟩
    else (Item.mark? c rest).map fun q => ⟨q.1.written (c :: rest), [], q.2⟩ := by
  rw [spelling, first?_choice, List.findSome?_append, List.findSome?_cons, first?_seq_one, first?_star_one,
    first?_marks, List.findSome?_singleton, first?_one]
  by_cases hw : isWordStart c = true
  · simp [hw, Match.before]
  · rw [if_neg hw, if_neg hw]
    cases rest with
    | nil =>
      rw [Item.mark?]
      by_cases hp : isPunctuation c = true <;> simp [hp, Item.written]
    | cons d after =>
      rw [Item.mark?]
      by_cases hd : (c, d) ∈ Item.doubleMarks
      · simp [hd, Item.written]
      · by_cases hp : isPunctuation c = true <;> simp [hd, hp, Item.written]

theorem mark?_spelled {q : Item × List Char} (h : Item.mark? c rest = some q) : ∃ text, q.1 = .spelled text := by
  unfold Item.mark? at h
  split at h
  · split at h
    · cases h
      exact ⟨_, rfl⟩
    · split at h
      · cases h
        exact ⟨_, rfl⟩
      · cases h
  · split at h
    · cases h
      exact ⟨_, rfl⟩
    · cases h

/-- **The preferred item** is the one that the scanner takes. -/
theorem first?_item (hn : '\n' ∉ rest) : item.first? (c :: rest) =
    (Item.next? c rest).map fun q => ⟨q.1.written (c :: rest), [(q.1.group, q.1.written (c :: rest))], q.2⟩ := by
  rw [item, first?_choice]
  simp only [List.findSome?_cons, List.findSome?_nil, first?_group, first?_comment hn, first?_digits, first?_quoted,
    first?_spelling]
  by_cases hcomment : c = '/' ∧ rest.head? = some '/'
  · rw [if_pos hcomment, Item.next?, if_pos hcomment]
    rfl
  rw [if_neg hcomment, Item.next?, if_neg hcomment]
  by_cases hdigit : isDecimalDigit c = true
  · rw [if_pos hdigit, if_pos hdigit]
    rfl
  rw [if_neg hdigit, if_neg hdigit]
  by_cases hword : isWordStart c = true
  · have hquote : c ≠ '"' := by
      rintro rfl
      exact absurd hword (by decide)
    rw [if_neg hquote, if_pos hword, if_pos hword]
    rfl
  rw [if_neg hword, if_neg hword]
  have hmark : ((Item.mark? c rest).map fun q => (⟨q.1.written (c :: rest), [], q.2⟩ : Match)).map
      (fun m => { m with groups := (5, m.taken) :: m.groups }) = (Item.mark? c rest).map fun q =>
        ⟨q.1.written (c :: rest), [(q.1.group, q.1.written (c :: rest))], q.2⟩ := by
    cases hm : Item.mark? c rest with
    | none => rfl
    | some q =>
      obtain ⟨text, htext⟩ := mark?_spelled hm
      simp [htext, Item.group]
  rw [hmark]
  by_cases hquote : c = '"'
  · subst hquote
    rw [if_pos rfl, if_pos rfl]
    cases Literal.split rest with
    | some q => rfl
    | none => cases Item.mark? '"' rest <;> rfl
  · rw [if_neg hquote, if_neg hquote]
    cases Item.mark? c rest <;> rfl

/-- **The preferred match** is the white space and the item that the scanner takes. -/
theorem first?_token {cs : List Char} (hn : '\n' ∉ cs) : token.first? cs =
    some ((Match.mk (cs.takeWhile isBlank) [] (cs.dropWhile isBlank)).before
      (match Item.at? (cs.dropWhile isBlank) with
      | none => .start (cs.dropWhile isBlank)
      | some (item, after) =>
        let text := item.written (cs.dropWhile isBlank)
        ⟨text, [(1, text), (item.group, text)], after⟩)) := by
  apply first?_seq_of (first?_star_one isBlank cs)
  have hn' : '\n' ∉ cs.dropWhile isBlank := fun hm => hn ((List.dropWhile_sublist _).mem hm)
  rw [first?_alt, first?_group]
  cases hd : cs.dropWhile isBlank with
  | nil => rfl
  | cons c rest =>
    rw [hd] at hn'
    rw [first?_item fun hm => hn' (List.mem_cons_of_mem _ hm), Item.at?]
    cases Item.next? c rest with
    | none => rfl
    | some q => rfl

end Pattern

/-! ## Lines -/

/-- what the groups of a match remember -/
def Match.item? (m : Match) : Option Item :=
  if (m.group? 2).isSome then some .comment
  else
    match m.group? 3, m.group? 4, m.group? 5 with
    | some run, _, _ => some (.digits run)
    | none, some literal, _ => some (.quoted literal.tail.dropLast)
    | none, none, some text => some (.spelled text)
    | none, none, none => none

/-- what is left of a line of `width` characters is matched again and again, and that is the answer -/
inductive Matched (line width : Nat) : List Char → Except ScanError (List Token) → Prop
  | ended : Matched line width [] (.ok [Token.lineEnd line])
  | blank {cs : List Char} {m : Match} : cs ≠ [] → Pattern.token.first? cs = some m → m.group? 1 = none →
      cs.all isBlank = true → Matched line width cs (.ok [Token.lineEnd line])
  /-- the column after what has been matched -/
  | bad {cs : List Char} {m : Match} : cs ≠ [] → Pattern.token.first? cs = some m → m.group? 1 = none →
      cs.all isBlank = false → Matched line width cs (.error (.badToken line (width - m.rest.length + 1)))
  | misread {cs : List Char} {m : Match} {item : Item} {e : ScanError} : cs ≠ [] →
      Pattern.token.first? cs = some m → m.group? 1 ≠ none → m.item? = some item → item.tokens line = .error e →
      Matched line width cs (.error e)
  | item {cs : List Char} {m : Match} {item : Item} {first : List Token} {r : Except ScanError (List Token)} :
      cs ≠ [] → Pattern.token.first? cs = some m → m.group? 1 ≠ none → m.item? = some item →
      item.tokens line = .ok first → Matched line width m.rest r → Matched line width cs (r.map (first ++ ·))

section Loop

variable {line width : Nat} {cs : List Char}

/-- the match at a line with an item -/
theorem first?_at {c : Char} {rest after : List Char} {item : Item} (hn : '\n' ∉ cs)
    (hd : cs.dropWhile isBlank = c :: rest) (hi : Item.next? c rest = some (item, after)) :
    ∃ m, Pattern.token.first? cs = some m ∧ m.group? 1 ≠ none ∧ m.item? = some item ∧ m.rest = after := by
  refine ⟨_, Pattern.first?_token hn, ?_⟩
  rw [hd, Item.at?, hi]
  refine ⟨Option.some_ne_none _, ?_, rfl⟩
  cases item with
  | quoted enclosed => simp [Match.item?, Match.group?, Match.before, Item.group, Item.written, List.lookup]
  | _ => rfl

/-- **The answer of the scanner is that of the pattern**, matched again and again. -/
theorem scanRest_matched (hn : '\n' ∉ cs) (hw : cs.length ≤ width) :
    Matched line width cs (scanRest line width cs) := by
  fun_induction scanRest line width cs with
  | case1 cs hd =>
    cases cs with
    | nil => exact .ended
    | cons c rest =>
      have hblank : (c :: rest).all isBlank = true := List.all_eq_true.2 (List.dropWhile_eq_nil_iff.1 hd)
      have hfirst := Pattern.first?_token hn
      rw [hd] at hfirst
      exact .blank (by simp) hfirst rfl hblank
  | case2 cs c rest hd hi =>
    have hne : cs ≠ [] := by
      rintro rfl
      cases hd
    have hblank : cs.all isBlank = false := Bool.eq_false_iff.2 fun hall => by
      rw [List.dropWhile_eq_nil_iff.2 (List.all_eq_true.1 hall)] at hd
      cases hd
    have hfirst := Pattern.first?_token hn
    rw [hd, Item.at?, hi] at hfirst
    have hlen : (c :: rest).length ≤ cs.length := by
      rw [← hd]
      exact Item.length_dropWhile_le isBlank cs
    have hcolumn : width - rest.length = width - (c :: rest).length + 1 := by
      simp only [List.length_cons] at *
      omega
    rw [hcolumn]
    exact .bad hne hfirst rfl hblank
  | case3 cs c rest hd item after hi ih =>
    have hne : cs ≠ [] := by
      rintro rfl
      cases hd
    obtain ⟨m, hm, htoken, hitem, rfl⟩ := first?_at hn hd hi
    have hplace := Pattern.first?_place hm
    have hline : '\n' ∉ m.rest := fun h => hn (hplace ▸ List.mem_append_right _ h)
    have hlen : m.rest.length ≤ width := by
      rw [← hplace, List.length_append] at hw
      omega
    cases ht : item.tokens line with
    | error e => exact .misread hne hm htoken hitem ht
    | ok first =>
      have hall : (Except.ok first >>= fun first => scanRest line width m.rest >>= fun others =>
          pure (first ++ others)) = (scanRest line width m.rest).map (first ++ ·) := by
        cases scanRest line width m.rest <;> rfl
      exact hall ▸ .item hne hm htoken hitem ht (ih hline hlen)

theorem Matched.unique {r r' : Except ScanError (List Token)} (h : Matched line width cs r)
    (h' : Matched line width cs r') : r = r' := by
  induction h generalizing r' with
  | ended => cases h' <;> grind
  | blank _ _ _ _ => cases h' <;> grind
  | bad _ _ _ _ => cases h' <;> grind
  | misread _ _ _ _ _ => cases h' <;> grind
  | item _ _ _ _ _ _ ih => cases h' <;> grind

end Loop

/-- **Lines by the pattern.** Matching the token pattern again and again comes to an end on every line, and the answer
is that of the scanner. -/
theorem matched_iff {line : Nat} {cs : List Char} (hn : '\n' ∉ cs) {r : Except ScanError (List Token)} :
    Matched line cs.length cs r ↔ r = scanLine line cs := by
  have hscan : Matched line cs.length cs (scanLine line cs) := scanRest_matched hn (le_refl _)
  constructor
  · intro h
    exact h.unique hscan
  · rintro rfl
    exact hscan

end Stone
