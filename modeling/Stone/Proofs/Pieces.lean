/-
What a line consists of. A line is cut, from left to right and without regard to any error, into white space, digit
runs, words and marks, string literals and characters that are none of these, and at the end there may be a comment
(`Consists`). Every line has exactly one such account, whether it scans or not, and the scanner's answer can be read off
it.

- `consists_exists`, `Consists.unique`: each line has one account.
- `Consists.scanRest_before`: pieces that are sound give their tokens, whatever comes after them.
- `scanLine_badToken_iff`: which character of a line is blamed.
- `scanLine_accounts`: which lines scan, what their tokens are, and which character is blamed in the others.
-/
import Stone.Proofs.Pattern

namespace Stone

open Text

/-! ## Characters -/

/-- neither white space, nor a decimal digit, nor printable ASCII -/
def isForeign (c : Char) : Bool := !isBlank c && !isDecimalDigit c && !(32 ≤ c.toNat && c.toNat ≤ 126)

theorem foreign_class {c : Char} (h : isForeign c = true) :
    isBlank c = false ∧ isDecimalDigit c = false ∧ isWordPart c = false ∧ isPunctuation c = false := by
  simp only [isForeign, Bool.and_eq_true, Bool.not_eq_true'] at h
  obtain ⟨⟨hblank, hdigit⟩, hprint⟩ := h
  refine ⟨hblank, hdigit, ?_, ?_⟩
  · refine Bool.eq_false_iff.2 fun hw => ?_
    have hall := ascii_forall (p := fun c => !isWordPart c || (32 ≤ c.toNat && c.toNat ≤ 126)) (by decide)
      (ascii_of_isWordPart hw)
    rw [hw, hprint] at hall
    cases hall
  · refine Bool.eq_false_iff.2 fun hp => ?_
    have hall := ascii_forall (p := fun c => !isPunctuation c || (32 ≤ c.toNat && c.toNat ≤ 126)) (by decide)
      (ascii_of_isPunctuation hp)
    rw [hp, hprint] at hall
    cases hall

/-- a character that begins nothing is foreign -/
theorem isForeign_of_class {c : Char} (hb : isBlank c = false) (hd : isDecimalDigit c = false)
    (hw : isWordStart c = false) (hp : isPunctuation c = false) : isForeign c = true := by
  rw [isForeign, hb, hd]
  by_cases hc : c.toNat < 128
  · have hall := ascii_forall
      (p := fun c => isBlank c || isDecimalDigit c || isWordStart c || isPunctuation c ||
        !(32 ≤ c.toNat && c.toNat ≤ 126)) (by decide) hc
    rw [hb, hd, hw, hp] at hall
    simpa using hall
  · have : ¬ c.toNat ≤ 126 := by omega
    simp [this]

/-! ## Pieces -/

/-- what a line is cut into -/
inductive Piece where
  | blank (run : List Char)
  | digits (run : List Char)
  /-- a word or a mark -/
  | spelled (text : List Char)
  /-- a string literal, by what stands between its quotes -/
  | quoted (enclosed : List Char)
  /-- a character that begins nothing -/
  | foreign (c : Char)
deriving DecidableEq

namespace Piece

/-- the piece as it stands in the line -/
def text : Piece → List Char
  | blank run => run
  | digits run => run
  | spelled text => text
  | quoted enclosed => '"' :: (enclosed ++ ['"'])
  | foreign c => [c]

/-- the lexeme that the piece spells -/
def lexeme? : Piece → Option Lexeme
  | blank _ => none
  | digits run => (Decimal.readPlain? run).map .number
  | spelled text => some (.identifier (String.ofList text))
  | quoted enclosed => some (.string (String.ofList ((Literal.parts enclosed).map Literal.Part.meaning)))
  | foreign _ => none

/-- the piece is white space or spells a lexeme -/
def Sound (p : Piece) : Prop := (∃ run, p = blank run) ∨ ∃ x, p.lexeme? = some x

def isQuoted : Piece → Bool
  | quoted _ => true
  | _ => false

/-- the texts of pieces, one after the other -/
def texts (ps : List Piece) : List Char := ps.flatMap text

end Piece

/-- the characters begin with the piece, which is as long as it can be, and go on with the rest -/
inductive Heads : Piece → List Char → List Char → Prop
  | blank {run rest : List Char} : run ≠ [] → (∀ c ∈ run, isBlank c = true) →
      (∀ c, rest.head? = some c → isBlank c = false) → Heads (.blank run) (run ++ rest) rest
  | digits {run rest : List Char} : run ≠ [] → (∀ c ∈ run, isDecimalDigit c = true) →
      (∀ c, rest.head? = some c → isDecimalDigit c = false) → Heads (.digits run) (run ++ rest) rest
  | word {c : Char} {cs rest : List Char} : isWordStart c = true → (∀ d ∈ cs, isWordPart d = true) →
      (∀ d, rest.head? = some d → isWordPart d = false) → Heads (.spelled (c :: cs)) (c :: (cs ++ rest)) rest
  | double {c d : Char} {rest : List Char} : (c, d) ∈ Item.doubleMarks →
      Heads (.spelled [c, d]) (c :: d :: rest) rest
  /-- an underscore begins a word, two slashes a comment; a quote is a mark if nothing can close it -/
  | single {c : Char} {rest : List Char} : isPunctuation c = true → c ≠ '_' →
      (∀ d, rest.head? = some d → (c, d) ∉ Item.doubleMarks) → (c = '/' → rest.head? ≠ some '/') →
      (c = '"' → '"' ∉ rest) → Heads (.spelled [c]) (c :: rest) rest
  | quoted {text enclosed rest : List Char} : Literal.Encloses text enclosed rest →
      Heads (.quoted enclosed) ('"' :: text) rest
  | foreign {c : Char} {rest : List Char} : isForeign c = true → Heads (.foreign c) (c :: rest) rest

/-- the line consists of the pieces, one after the other, and then of the comment, if there is one -/
inductive Consists : List Char → List Piece → List Char → Prop
  | done : Consists [] [] []
  | comment {text : List Char} : Consists ('/' :: '/' :: text) [] ('/' :: '/' :: text)
  | piece {p : Piece} {cs rest comment : List Char} {ps : List Piece} :
      Heads p cs rest → Consists rest ps comment → Consists cs (p :: ps) comment

/-! ## The first piece -/

theorem punctuation_start {c : Char} (h : isPunctuation c = true) (hc : c ≠ '_') : isWordStart c = false := by
  have hall := ascii_forall (p := fun c => !isPunctuation c || c == '_' || !isWordStart c) (by decide)
    (ascii_of_isPunctuation h)
  simpa [h, hc] using hall

theorem next_foreign {c : Char} (h : isForeign c = true) (rest : List Char) : Item.next? c rest = none := by
  obtain ⟨-, hdigit, hword, hmark⟩ := foreign_class h
  have hne : ∀ d, isPunctuation d = true → c ≠ d := by
    rintro d hd rfl
    rw [hmark] at hd
    cases hd
  have hstart : isWordStart c = false := Bool.eq_false_iff.2 fun hs => by
    rw [wordStart_part hs] at hword
    cases hword
  have hdouble : ∀ d, (c, d) ∉ Item.doubleMarks := fun d hd => hne c (doubleMark_class hd).1 rfl
  have hnone : Item.mark? c rest = none := by
    cases rest with
    | nil => rw [Item.mark?, hmark]; rfl
    | cons d rest => rw [Item.mark?, if_neg (hdouble d), hmark]; rfl
  rw [Item.next?, if_neg fun h => hne '/' rfl h.1, if_neg (by simp [hdigit]), if_neg (by simp [hstart]),
    if_neg (hne '"' rfl), hnone]

namespace Piece

/-- the piece of an item of the scanner; a comment is none -/
def ofItem? : Item → Option Piece
  | .comment => none
  | .digits run => some (digits run)
  | .spelled text => some (spelled text)
  | .quoted enclosed => some (quoted enclosed)

/-- the piece that the characters begin with, if they do not begin with a comment, and what is left -/
def first? : List Char → Option (Piece × List Char)
  | [] => none
  | c :: more =>
    if isBlank c then some (blank (c :: more.takeWhile isBlank), more.dropWhile isBlank)
    else
      match Item.next? c more with
      | some (item, after) => (ofItem? item).map fun p => (p, after)
      | none => some (foreign c, more)

theorem first?_item {c : Char} {more after : List Char} {item : Item} (hc : isBlank c = false)
    (hn : Item.next? c more = some (item, after)) : first? (c :: more) = (ofItem? item).map fun p => (p, after) := by
  rw [first?, hc, hn]
  rfl

end Piece

/-- pieces are what the scanner finds -/
theorem Heads.first? {p : Piece} {cs rest : List Char} (h : Heads p cs rest) : Piece.first? cs = some (p, rest) := by
  cases h with
  | @blank run _ hne hrun hrest =>
    obtain ⟨c, cs, rfl⟩ := List.exists_cons_of_ne_nil hne
    obtain ⟨hc, hcs⟩ := List.forall_mem_cons.1 hrun
    obtain ⟨htake, hdrop⟩ := takeWhile_run hcs hrest
    rw [List.cons_append, Piece.first?, if_pos hc, htake, hdrop]
  | @digits run _ hne hrun hrest =>
    obtain ⟨c, cs, rfl⟩ := List.exists_cons_of_ne_nil hne
    obtain ⟨hc, hcs⟩ := List.forall_mem_cons.1 hrun
    exact Piece.first?_item (digit_class hc) (next_digits hc hcs hrest)
  | word hc hcs hrest => exact Piece.first?_item (wordStart_class hc).1 (next_word hc hcs hrest)
  | double hd => exact Piece.first?_item (punctuation_class (doubleMark_class hd).1).1 (next_double hd _)
  | @single c _ hp hc hdouble hslash hquote =>
    have hsplit : c ≠ '"' ∨ Literal.split rest = none := by
      by_cases hq : c = '"'
      · exact .inr (split_none (hquote hq))
      · exact .inl hq
    exact Piece.first?_item (punctuation_class hp).1 (next_mark hp (punctuation_start hp hc) hsplit hslash hdouble)
  | @quoted text enclosed _ he =>
    have hnext : Item.next? '"' text = some (.quoted enclosed, rest) := by
      rw [next_quote, Literal.split_eq_some_iff.2 he]
    exact Piece.first?_item (by decide) hnext
  | foreign hc =>
    rw [Piece.first?, (foreign_class hc).1, next_foreign hc]
    rfl

/-- a piece and what is left make up the characters -/
theorem Heads.text_append {p : Piece} {cs rest : List Char} (h : Heads p cs rest) : p.text ++ rest = cs := by
  cases h with
  | quoted he =>
    cases he with
    | free hplace _ _ => simp [Piece.text, hplace]
    | last _ hplace _ => simp [Piece.text, hplace]
  | _ => rfl

theorem head?_dropWhile {p : Char → Bool} (cs : List Char) : ∀ c, (cs.dropWhile p).head? = some c → p c = false := by
  intro c hc
  have := List.head?_dropWhile_not p cs
  rw [hc] at this
  simpa using this

/-- a run that a class of characters allows, from its first character on -/
theorem run_of_class {p : Char → Bool} {c : Char} (hc : p c = true) (more : List Char) :
    (∀ d ∈ c :: more.takeWhile p, p d = true) ∧ c :: more = (c :: more.takeWhile p) ++ more.dropWhile p := by
  refine ⟨List.forall_mem_cons.2 ⟨hc, fun d hd => List.all_eq_true.1 List.all_takeWhile d hd⟩, ?_⟩
  rw [List.cons_append, List.takeWhile_append_dropWhile]

/-- **A line begins with a comment or with a piece**, if there is anything on it. -/
theorem heads_or_comment (c : Char) (more : List Char) :
    (∃ text, c :: more = '/' :: '/' :: text) ∨ ∃ p rest, Heads p (c :: more) rest ∧ rest.length ≤ more.length := by
  by_cases hblank : isBlank c = true
  · obtain ⟨hrun, hcut⟩ := run_of_class hblank more
    have hp := Heads.blank (by simp) hrun (head?_dropWhile more)
    rw [← hcut] at hp
    exact .inr ⟨_, _, hp, Item.length_dropWhile_le isBlank more⟩
  by_cases hcomment : c = '/' ∧ more.head? = some '/'
  · obtain ⟨rfl, hslash⟩ := hcomment
    obtain ⟨text, rfl⟩ := List.head?_eq_some_iff.1 hslash
    exact .inl ⟨text, rfl⟩
  refine .inr ?_
  by_cases hdigit : isDecimalDigit c = true
  · obtain ⟨hrun, hcut⟩ := run_of_class hdigit more
    have hp := Heads.digits (by simp) hrun (head?_dropWhile more)
    rw [← hcut] at hp
    exact ⟨_, _, hp, Item.length_dropWhile_le isDecimalDigit more⟩
  by_cases hword : isWordStart c = true
  · have hparts : ∀ d ∈ more.takeWhile isWordPart, isWordPart d = true :=
      fun d hd => List.all_eq_true.1 List.all_takeWhile d hd
    refine ⟨.spelled (c :: more.takeWhile isWordPart), more.dropWhile isWordPart, ?_, Item.length_dropWhile_le _ more⟩
    have h := Heads.word hword hparts (head?_dropWhile more)
    rwa [List.takeWhile_append_dropWhile] at h
  by_cases hdouble : ∃ d rest, more = d :: rest ∧ (c, d) ∈ Item.doubleMarks
  · obtain ⟨d, rest, rfl, hd⟩ := hdouble
    exact ⟨_, rest, .double hd, by simp⟩
  by_cases hquote : c = '"' ∧ '"' ∈ more
  · obtain ⟨rfl, hm⟩ := hquote
    cases hs : Literal.split more with
    | none => exact absurd hm (Literal.split_eq_none_iff.1 hs)
    | some q => exact ⟨_, q.2, .quoted (Literal.split_eq_some_iff.1 hs), Nat.le_of_lt (Literal.split_length hs)⟩
  by_cases hmark : isPunctuation c = true
  · refine ⟨_, more, .single hmark ?_ ?_ ?_ ?_, le_refl _⟩
    · rintro rfl
      exact hword (by decide)
    · intro d hd hm
      obtain ⟨rest, rfl⟩ := List.head?_eq_some_iff.1 hd
      exact hdouble ⟨d, rest, rfl, hm⟩
    · exact fun hc hs => hcomment ⟨hc, hs⟩
    · exact fun hc hm => hquote ⟨hc, hm⟩
  · exact ⟨_, more, .foreign (isForeign_of_class (by simpa using hblank) (by simpa using hdigit) (by simpa using hword)
      (by simpa using hmark)), le_refl _⟩

/-! ## Lines -/

/-- every line has an account -/
theorem consists_exists (cs : List Char) : ∃ ps comment, Consists cs ps comment := by
  induction h : cs.length using Nat.strong_induction_on generalizing cs with
  | _ n ih =>
    cases cs with
    | nil => exact ⟨[], [], .done⟩
    | cons c more =>
      rcases heads_or_comment c more with ⟨text, heq⟩ | ⟨p, rest, hp, hlen⟩
      · rw [heq]
        exact ⟨[], _, .comment⟩
      · obtain ⟨ps, comment, hps⟩ := ih rest.length (by simp at h; omega) rest rfl
        exact ⟨p :: ps, comment, .piece hp hps⟩

theorem first?_comment (text : List Char) : Piece.first? ('/' :: '/' :: text) = none := by
  have hnext : Item.next? '/' ('/' :: text) = some (.comment, []) := by rw [Item.next?, if_pos ⟨rfl, rfl⟩]
  exact Piece.first?_item (by decide) hnext

namespace Consists

variable {cs comment comment' : List Char} {ps ps' : List Piece}

/-- **A line has one account.** -/
theorem unique (h : Consists cs ps comment) (h' : Consists cs ps' comment') : ps = ps' ∧ comment = comment' := by
  induction h generalizing ps' comment' with
  | done =>
    cases h' with
    | done => exact ⟨rfl, rfl⟩
    | piece hp _ => cases hp.first?
  | comment =>
    cases h' with
    | comment => exact ⟨rfl, rfl⟩
    | piece hp _ =>
      have := hp.first?
      rw [first?_comment] at this
      cases this
  | piece hp _ ih =>
    have hfirst := hp.first?
    cases h' with
    | done => cases hfirst
    | comment =>
      rw [first?_comment] at hfirst
      cases hfirst
    | piece hp' hrest' =>
      rw [hp'.first?] at hfirst
      cases hfirst
      obtain ⟨rfl, rfl⟩ := ih hrest'
      exact ⟨rfl, rfl⟩

/-- **Every character is accounted for.** -/
theorem texts_append (h : Consists cs ps comment) : Piece.texts ps ++ comment = cs := by
  induction h with
  | done => rfl
  | comment => rfl
  | piece hp _ ih =>
    rw [Piece.texts, List.flatMap_cons, List.append_assoc]
    exact (congrArg (Piece.text _ ++ ·) ih).trans hp.text_append

theorem comment_eq (h : Consists cs ps comment) : comment = [] ∨ ['/', '/'] <+: comment := by
  induction h with
  | done => exact .inl rfl
  | comment => exact .inr ⟨_, rfl⟩
  | piece _ _ ih => exact ih

end Consists

/-! ## What the scanner says -/

section Answers

variable {p : Piece} {line width : Nat} {cs rest comment : List Char}

/-- how the scanner comes to a piece -/
theorem Piece.first?_cases (h : Piece.first? cs = some (p, rest)) :
    (∃ run, p = .blank run ∧ rest = cs.dropWhile isBlank) ∨
      (∃ c more item, cs = c :: more ∧ isBlank c = false ∧ Item.next? c more = some (item, rest) ∧
        Piece.ofItem? item = some p) ∨
      ∃ c, p = .foreign c ∧ cs = c :: rest ∧ isBlank c = false ∧ Item.next? c rest = none := by
  cases cs with
  | nil => cases h
  | cons c more =>
    rw [Piece.first?] at h
    by_cases hc : isBlank c = true
    · rw [if_pos hc] at h
      cases h
      exact .inl ⟨_, rfl, by rw [List.dropWhile_cons, if_pos hc]⟩
    · rw [if_neg hc] at h
      cases hn : Item.next? c more with
      | none =>
        rw [hn] at h
        cases h
        exact .inr (.inr ⟨c, rfl, rfl, by simpa using hc, hn⟩)
      | some r =>
        obtain ⟨item, after⟩ := r
        rw [hn] at h
        obtain ⟨q, hq, heq⟩ := Option.map_eq_some_iff.1 h
        cases heq
        exact .inr (.inl ⟨c, more, item, rfl, by simpa using hc, hn, hq⟩)

theorem tokens_of_lexeme {item : Item} {x : Lexeme} (hp : Piece.ofItem? item = some p) (hx : p.lexeme? = some x) :
    item.tokens line = .ok [⟨line, x⟩] := by
  cases item with
  | comment => cases hp
  | digits run =>
    cases hp
    obtain ⟨d, hd, rfl⟩ := Option.map_eq_some_iff.1 hx
    simp only [Item.tokens, hd]
    rfl
  | quoted enclosed =>
    cases hp
    cases hx
    rw [Item.tokens, Literal.contents_eq]
    rfl
  | spelled text =>
    cases hp
    cases hx
    rfl

/-- a sound piece gives its token, if it is no white space, and scanning goes on -/
theorem Heads.scanRest_sound (h : Heads p cs rest) (hs : p.Sound) :
    scanRest line width cs = ahead line p.lexeme?.toList (scanRest line width rest) := by
  rcases Piece.first?_cases h.first? with ⟨run, rfl, rfl⟩ | ⟨c, more, item, rfl, hc, hn, hp⟩ | ⟨c, rfl, -, -, -⟩
  · have hidem : (cs.dropWhile isBlank).dropWhile isBlank = cs.dropWhile isBlank := List.dropWhile_idempotent isBlank cs
    rw [scanRest_eq line width (cs.dropWhile isBlank), hidem, ← scanRest_eq]
    exact (ahead_nil line _).symm
  · obtain ⟨run, rfl⟩ | ⟨x, hx⟩ := hs
    · cases item <;> cases hp
    · rw [scanRest_one hc hn (tokens_of_lexeme hp hx), hx]
      rfl
  · obtain ⟨run, hrun⟩ | ⟨x, hx⟩ := hs
    · cases hrun
    · cases hx

/-- a foreign character is blamed -/
theorem Heads.scanRest_foreign {c : Char} (h : Heads (.foreign c) cs rest) :
    scanRest line width cs = .error (.badToken line (width - rest.length)) := by
  rcases Piece.first?_cases h.first? with ⟨run, hp, -⟩ | ⟨_, _, item, -, -, -, hp⟩ | ⟨d, -, rfl, hd, hn⟩
  · cases hp
  · cases item <;> cases hp
  · rw [scanRest_eq, List.dropWhile_cons, if_neg (by simp [hd])]
    simp only [hn]

/-- a digit run that is no number is blamed -/
theorem Heads.scanRest_misread {run : List Char} (h : Heads (.digits run) cs rest)
    (hrun : Decimal.readPlain? run = none) :
    scanRest line width cs = .error (.badNumber line (String.ofList run)) := by
  rcases Piece.first?_cases h.first? with ⟨_, hp, -⟩ | ⟨c, more, item, rfl, hc, hn, hp⟩ | ⟨_, hp, -⟩
  · cases hp
  · obtain rfl : item = .digits run := by cases item <;> cases hp; rfl
    rw [scanRest_item hc hn]
    simp only [Item.tokens, hrun]
    rfl
  · cases hp

/-- nothing but a comment, or not even that -/
theorem Consists.scanRest_comment (h : Consists cs [] comment) : scanRest line width cs = .ok [Token.lineEnd line] := by
  cases h with
  | done => exact scanRest_nil
  | comment =>
    have hnext : ∀ text, Item.next? '/' ('/' :: text) = some (.comment, []) := fun text => by
      rw [Item.next?, if_pos ⟨rfl, rfl⟩]
    rw [scanRest_item (by decide) (hnext _), scanRest_nil]
    rfl

/-- **Sound pieces give their tokens**, whatever comes after them. -/
theorem Consists.scanRest_before {before after : List Piece} (h : Consists cs (before ++ after) comment)
    (hs : ∀ p ∈ before, p.Sound) :
    ∃ rest, Consists rest after comment ∧ Piece.texts before ++ rest = cs ∧ ∀ line width,
      scanRest line width cs = ahead line (before.filterMap Piece.lexeme?) (scanRest line width rest) := by
  induction before generalizing cs with
  | nil => exact ⟨cs, h, rfl, fun line width => (ahead_nil line _).symm⟩
  | cons p before ih =>
    obtain ⟨hp, hbefore⟩ := List.forall_mem_cons.1 hs
    cases h with
    | piece hheads hrest =>
      obtain ⟨rest, hafter, htexts, hscan⟩ := ih hrest hbefore
      refine ⟨rest, hafter, ?_, fun line width => ?_⟩
      · rw [Piece.texts, List.flatMap_cons, List.append_assoc]
        exact (congrArg (Piece.text _ ++ ·) htexts).trans hheads.text_append
      · rw [hheads.scanRest_sound hp, hscan, ← ahead_append, List.filterMap_cons]
        cases p.lexeme? <;> rfl

end Answers

/-! ## Places in a line -/

/-- the character stands at this place of the line, outside strings and the comment -/
def StandsOutside (cs : List Char) (i : Nat) (c : Char) : Prop :=
  ∃ before p after comment j, Consists cs (before ++ p :: after) comment ∧ p.isQuoted = false ∧ p.text[j]? = some c ∧
    i = (Piece.texts before).length + j

/-- this digit run, which is no number, begins at this place of the line -/
def MisreadAt (cs : List Char) (i : Nat) (run : List Char) : Prop :=
  ∃ before after comment, Consists cs (before ++ .digits run :: after) comment ∧ Decimal.readPlain? run = none ∧
    i = (Piece.texts before).length

theorem not_sound_iff {p : Piece} :
    ¬ p.Sound ↔ (∃ c, p = .foreign c) ∨ ∃ run, p = .digits run ∧ Decimal.readPlain? run = none := by
  cases p <;> simp [Piece.Sound, Piece.lexeme?, Option.eq_none_iff_forall_ne_some]

/-- outside strings only foreign pieces have foreign characters -/
theorem Heads.not_foreign {p : Piece} {cs rest : List Char} (h : Heads p cs rest) (hq : p.isQuoted = false)
    (hf : ∀ c, p ≠ .foreign c) : ∀ c ∈ p.text, isForeign c = false := by
  intro c hc
  refine Bool.eq_false_iff.2 fun hforeign => ?_
  obtain ⟨hblank, hdigit, hword, hmark⟩ := foreign_class hforeign
  cases h with
  | blank _ hrun _ => simp [hrun c hc] at hblank
  | digits _ hrun _ => simp [hrun c hc] at hdigit
  | word hd hcs _ =>
    rcases List.mem_cons.1 hc with rfl | hc
    · simp [wordStart_part hd] at hword
    · simp [hcs c hc] at hword
  | double hd =>
    obtain ⟨h1, h2, -⟩ := doubleMark_class hd
    simp only [Piece.text, List.mem_cons, List.not_mem_nil, or_false] at hc
    rcases hc with rfl | rfl
    · simp [h1] at hmark
    · simp [h2] at hmark
  | single hp _ _ _ _ =>
    obtain rfl := List.mem_singleton.1 hc
    simp [hp] at hmark
  | quoted _ => cases hq
  | foreign _ => exact hf _ rfl

theorem Heads.blank_run {run cs rest : List Char} (h : Heads (.blank run) cs rest) : ∀ c ∈ run, isBlank c = true := by
  cases h with
  | blank _ hrun _ => exact hrun

theorem Heads.is_foreign {c : Char} {cs rest : List Char} (h : Heads (.foreign c) cs rest) : isForeign c = true := by
  cases h with
  | foreign hc => exact hc

/-- a piece of a line heads what is left of it there -/
theorem Consists.heads {cs comment : List Char} {ps : List Piece} (h : Consists cs ps comment) :
    ∀ p ∈ ps, ∃ left rest, Heads p left rest := by
  induction h with
  | done => nofun
  | comment => nofun
  | piece hp _ ih => exact List.forall_mem_cons.2 ⟨⟨_, _, hp⟩, ih⟩

/-- pieces are sound up to the first that is not -/
theorem sound_or_first (ps : List Piece) :
    (∀ p ∈ ps, p.Sound) ∨ ∃ before p after, ps = before ++ p :: after ∧ (∀ q ∈ before, q.Sound) ∧ ¬ p.Sound := by
  induction ps with
  | nil => exact .inl nofun
  | cons p ps ih =>
    by_cases hp : p.Sound
    · rcases ih with hall | ⟨before, q, after, rfl, hbefore, hq⟩
      · exact .inl (List.forall_mem_cons.2 ⟨hp, hall⟩)
      · exact .inr ⟨p :: before, q, after, rfl, List.forall_mem_cons.2 ⟨hp, hbefore⟩, hq⟩
    · exact .inr ⟨[], p, ps, rfl, nofun, hp⟩

/-- of two places in a list one is before the other, or they are the same -/
theorem place_cases {α : Type} {before after before' after' : List α} {p q : α}
    (h : before ++ p :: after = before' ++ q :: after') :
    q ∈ before ∨ (before' = before ∧ q = p) ∨ ∃ more, before' = before ++ p :: more := by
  rcases List.append_eq_append_iff.1 h with ⟨more, rfl, hm⟩ | ⟨more, rfl, hm⟩
  · cases more with
    | nil => exact .inr (.inl ⟨by simp, by simpa using (List.cons.inj hm).1.symm⟩)
    | cons r more =>
      obtain rfl : p = r := (List.cons.inj hm).1
      exact .inr (.inr ⟨more, rfl⟩)
  · cases more with
    | nil => exact .inr (.inl ⟨by simp, by simpa using (List.cons.inj hm).1⟩)
    | cons r more =>
      obtain rfl : q = r := (List.cons.inj hm).1
      exact .inl (by simp)

/-- **The answer of the scanner**, read off the account of the line. -/
theorem Consists.scanLine_cases {cs comment : List Char} {ps : List Piece} (h : Consists cs ps comment) (line : Nat) :
    ((∀ p ∈ ps, p.Sound) ∧
        scanLine line cs = .ok ((ps.filterMap Piece.lexeme?).map (Token.mk line) ++ [Token.lineEnd line])) ∨
      (∃ before c after, ps = before ++ .foreign c :: after ∧ (∀ p ∈ before, p.Sound) ∧
        scanLine line cs = .error (.badToken line ((Piece.texts before).length + 1))) ∨
      ∃ before run after, ps = before ++ .digits run :: after ∧ (∀ p ∈ before, p.Sound) ∧
        Decimal.readPlain? run = none ∧ scanLine line cs = .error (.badNumber line (String.ofList run)) := by
  rcases sound_or_first ps with hall | ⟨before, p, after, rfl, hbefore, hp⟩
  · rw [← List.append_nil ps] at h
    obtain ⟨rest, hrest, -, hscan⟩ := h.scanRest_before hall
    refine .inl ⟨hall, ?_⟩
    rw [scanLine, hscan, hrest.scanRest_comment]
    rfl
  · obtain ⟨rest, hrest, htexts, hscan⟩ := h.scanRest_before hbefore
    cases hrest with
    | @piece _ _ left _ _ hheads _ =>
      rcases not_sound_iff.1 hp with ⟨c, rfl⟩ | ⟨run, rfl, hrun⟩
      · refine .inr (.inl ⟨before, c, after, rfl, hbefore, ?_⟩)
        have hplace : cs.length - left.length = (Piece.texts before).length + 1 := by
          rw [← htexts, ← hheads.text_append]
          simp only [Piece.text, List.length_append, List.length_cons, List.length_nil]
          omega
        rw [scanLine, hscan, hheads.scanRest_foreign, hplace]
        rfl
      · refine .inr (.inr ⟨before, run, after, rfl, hbefore, hrun, ?_⟩)
        rw [scanLine, hscan, hheads.scanRest_misread hrun]
        rfl

section Places

variable {cs comment : List Char} {before after : List Piece} {p : Piece} {i : Nat}

/-- a foreign character outside strings is not in the sound pieces that the line begins with -/
theorem StandsOutside.le {c : Char} (ho : StandsOutside cs i c) (hc : isForeign c = true)
    (h : Consists cs (before ++ p :: after) comment) (hs : ∀ p ∈ before, p.Sound) :
    (Piece.texts before).length ≤ i := by
  obtain ⟨before', q, after', comment', j, h', hq, hj, rfl⟩ := ho
  rcases place_cases (h.unique h').1 with hmem | ⟨rfl, -⟩ | ⟨more, rfl⟩
  · obtain ⟨left, rest, hheads⟩ := h.heads q (List.mem_append_left _ hmem)
    have hsound : ∀ d, q ≠ .foreign d := by
      rintro d rfl
      exact not_sound_iff.2 (.inl ⟨d, rfl⟩) (hs _ hmem)
    rw [hheads.not_foreign hq hsound c (List.mem_of_getElem? hj)] at hc
    cases hc
  · exact Nat.le_add_right _ _
  · simp only [Piece.texts, List.flatMap_append, List.length_append]
    omega

/-- a misread digit run is not in the sound pieces that the line begins with -/
theorem MisreadAt.le {run : List Char} (hm : MisreadAt cs i run) (h : Consists cs (before ++ p :: after) comment)
    (hs : ∀ p ∈ before, p.Sound) :
    (p = .digits run ∧ i = (Piece.texts before).length) ∨ (Piece.texts before).length + p.text.length ≤ i := by
  obtain ⟨before', after', comment', h', hrun, rfl⟩ := hm
  rcases place_cases (h.unique h').1 with hmem | ⟨rfl, rfl⟩ | ⟨more, rfl⟩
  · exact absurd (hs _ hmem) (not_sound_iff.2 (.inr ⟨run, rfl, hrun⟩))
  · exact .inl ⟨rfl, rfl⟩
  · right
    simp only [Piece.texts, List.flatMap_append, List.flatMap_cons, List.length_append]
    omega

/-- no foreign character stands outside strings in a line whose pieces are all sound -/
theorem StandsOutside.not_foreign {c : Char} {ps : List Piece} (ho : StandsOutside cs i c) (h : Consists cs ps comment)
    (hs : ∀ p ∈ ps, p.Sound) : isForeign c = false := by
  obtain ⟨before, p, after, comment', j, h', hq, hj, -⟩ := ho
  obtain ⟨rfl, -⟩ := h.unique h'
  have hp : p ∈ before ++ p :: after := by simp
  obtain ⟨left, rest, hheads⟩ := h.heads p hp
  refine hheads.not_foreign hq ?_ c (List.mem_of_getElem? hj)
  rintro d rfl
  exact not_sound_iff.2 (.inl ⟨d, rfl⟩) (hs _ hp)

end Places

/-- a line that scans has sound pieces, and its tokens are theirs -/
theorem Consists.scanLine_ok {line : Nat} {cs comment : List Char} {ps : List Piece} {ts : List Token}
    (h : Consists cs ps comment) (hts : scanLine line cs = .ok ts) :
    (∀ p ∈ ps, p.Sound) ∧ ts = (ps.filterMap Piece.lexeme?).map (Token.mk line) ++ [Token.lineEnd line] := by
  rcases h.scanLine_cases line with ⟨hall, hscan⟩ | ⟨_, _, _, -, -, hscan⟩ | ⟨_, _, _, -, -, -, hscan⟩
  · rw [hscan] at hts
    cases hts
    exact ⟨hall, rfl⟩
  · rw [hscan] at hts
    cases hts
  · rw [hscan] at hts
    cases hts

/-- a piece that is sound is white space or a lexeme -/
theorem Consists.sound_cases {cs comment : List Char} {ps : List Piece} (h : Consists cs ps comment)
    (hs : ∀ p ∈ ps, p.Sound) : ∀ p ∈ ps,
      (∃ run, p = .blank run ∧ ∀ c ∈ run, isBlank c = true) ∨ ∃ x, p.lexeme? = some x := by
  intro p hp
  rcases hs p hp with ⟨run, rfl⟩ | hx
  · obtain ⟨left, rest, hheads⟩ := h.heads _ hp
    exact .inl ⟨run, rfl, hheads.blank_run⟩
  · exact .inr hx

/-- **Blamed characters.** The scanner blames a column if a foreign character stands there, outside strings and the
comment, no other foreign character stands before it, and no misread digit run does. -/
theorem scanLine_badToken_iff {line l column : Nat} {cs : List Char} :
    scanLine line cs = .error (.badToken l column) ↔
      l = line ∧ ∃ i c, column = i + 1 ∧ StandsOutside cs i c ∧ isForeign c = true ∧
        (∀ j d, StandsOutside cs j d → isForeign d = true → i ≤ j) ∧ ∀ j run, MisreadAt cs j run → i < j := by
  obtain ⟨ps, comment, h⟩ := consists_exists cs
  rcases h.scanLine_cases line with ⟨hall, hscan⟩ | ⟨before, c, after, rfl, hbefore, hscan⟩ |
    ⟨before, run, after, rfl, hbefore, hrun, hscan⟩
  · rw [hscan]
    refine ⟨nofun, ?_⟩
    rintro ⟨-, i, c, -, ho, hc, -⟩
    rw [ho.not_foreign h hall] at hc
    cases hc
  · -- the first piece that is not sound is a foreign character
    have hplace : StandsOutside cs (Piece.texts before).length c := ⟨before, _, after, comment, 0, h, rfl, rfl, rfl⟩
    obtain ⟨left, rest, hheads⟩ := h.heads (.foreign c) (by simp)
    rw [hscan]
    constructor
    · intro he
      cases he
      refine ⟨rfl, _, c, rfl, hplace, hheads.is_foreign, fun j d hd hf => hd.le hf h hbefore, fun j run hm => ?_⟩
      rcases hm.le h hbefore with ⟨hp, -⟩ | hle
      · cases hp
      · exact Nat.lt_of_succ_le hle
    · rintro ⟨rfl, i, d, rfl, ho, hd, hmin, -⟩
      rw [Nat.le_antisymm (hmin _ c hplace hheads.is_foreign) (ho.le hd h hbefore)]
  · -- it is a digit run, and no foreign character comes before it
    rw [hscan]
    refine ⟨nofun, ?_⟩
    rintro ⟨-, i, d, -, ho, hd, -, hbad⟩
    exact absurd (ho.le hd h hbefore) (Nat.not_le_of_lt (hbad _ run ⟨before, after, comment, h, hrun, rfl⟩))

/-- a line scans, or a column is blamed, or a digit run -/
theorem scanLine_answers (line : Nat) (cs : List Char) :
    (∃ ts, scanLine line cs = .ok ts) ∨ (∃ column, scanLine line cs = .error (.badToken line column)) ∨
      ∃ i run, scanLine line cs = .error (.badNumber line (String.ofList run)) ∧ MisreadAt cs i run := by
  obtain ⟨ps, comment, h⟩ := consists_exists cs
  rcases h.scanLine_cases line with ⟨-, hscan⟩ | ⟨before, c, after, -, -, hscan⟩ |
    ⟨before, run, after, rfl, -, hrun, hscan⟩
  · exact .inl ⟨_, hscan⟩
  · exact .inr (.inl ⟨_, hscan⟩)
  · exact .inr (.inr ⟨_, run, hscan, before, after, comment, h, hrun, rfl⟩)

/-- **Lines.** On every line the matching of the token pattern comes to an end with the answer of the scanner. A line
that scans consists of white space and lexemes, one for each token but the last, in order, and then perhaps of a
comment. A column is blamed if a foreign character stands there, outside strings and the comment, before any digit run
that is misread; it is the place of the first such character, counted from 1. Every other line has a digit run that is
misread, and that is the answer. -/
theorem scanLine_accounts (line : Nat) (cs : List Char) :
    ('\n' ∉ cs → ∀ r, Matched line cs.length cs r ↔ r = scanLine line cs) ∧
    (∀ ts, scanLine line cs = .ok ts → ∃ pieces comment, Consists cs pieces comment ∧
      cs = Piece.texts pieces ++ comment ∧ (comment = [] ∨ ['/', '/'] <+: comment) ∧
      (∀ p ∈ pieces, (∃ run, p = .blank run ∧ ∀ c ∈ run, isBlank c = true) ∨ ∃ x, p.lexeme? = some x) ∧
      ts = (pieces.filterMap Piece.lexeme?).map (Token.mk line) ++ [Token.lineEnd line]) ∧
    (∀ l column, scanLine line cs = .error (.badToken l column) ↔
      l = line ∧ ∃ i c, column = i + 1 ∧ StandsOutside cs i c ∧ isForeign c = true ∧
        (∀ j d, StandsOutside cs j d → isForeign d = true → i ≤ j) ∧ ∀ j run, MisreadAt cs j run → i < j) ∧
    ((∃ ts, scanLine line cs = .ok ts) ∨ (∃ column, scanLine line cs = .error (.badToken line column)) ∨
      ∃ i run, scanLine line cs = .error (.badNumber line (String.ofList run)) ∧ MisreadAt cs i run) := by
  refine ⟨fun hn r => matched_iff hn, fun ts hts => ?_, fun l column => scanLine_badToken_iff,
    scanLine_answers line cs⟩
  obtain ⟨ps, comment, h⟩ := consists_exists cs
  obtain ⟨hall, htokens⟩ := h.scanLine_ok hts
  exact ⟨ps, comment, h, h.texts_append.symm, h.comment_eq, h.sound_cases hall, htokens⟩

/-- a character that is no ASCII, after a word and a blank -/
theorem scanLine_accounts_foreign :
    Matched 1 3 ['a', ' ', '\u2603'] (.error (.badToken 1 3)) ∧
      scanLine 1 ['a', ' ', '\u2603'] = .error (.badToken 1 3) ∧
      ∃ i c, 3 = i + 1 ∧ StandsOutside ['a', ' ', '\u2603'] i c ∧ isForeign c = true := by
  have hword : Item.next? 'a' [' ', '\u2603'] = some (.spelled ['a'], [' ', '\u2603']) := by decide
  have hnone : Item.next? '\u2603' [] = none := by decide
  have hscan : scanLine 1 ['a', ' ', '\u2603'] = .error (.badToken 1 3) := by
    have hdrop : ['\u2603'].dropWhile isBlank = ['\u2603'] := by decide
    rw [scanLine, scanRest_item (by decide) hword, scanRest_blank (by decide), scanRest_eq, hdrop]
    simp only [hnone]
    rfl
  obtain ⟨hmatched, -, hbad, -⟩ := scanLine_accounts 1 ['a', ' ', '\u2603']
  obtain ⟨-, i, c, hi, hc, hforeign, -⟩ := (hbad 1 3).1 hscan
  exact ⟨(hmatched (by decide) _).2 hscan.symm, hscan, i, c, hi, hc, hforeign⟩

end Stone
