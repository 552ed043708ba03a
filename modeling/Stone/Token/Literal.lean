/-
String literals: their extent, their contents, and the literal of a text. In a literal `\"`, `\\` and `\n` are pairs,
taken from left to right, and any other backslash stands for itself. A literal ends at the first quote that no pair
takes. Where every later quote of the line is in a pair it ends at the last of them, and the backslash before that quote
is kept.
-/

namespace Stone.Literal

/-! ## Writing -/

/-- one character of a literal -/
def writeChar : Char → List Char
  | '"' => ['\\', '"']
  | '\\' => ['\\', '\\']
  | '\n' => ['\\', 'n']
  | c => [c]

/-- the literal of a text; it escapes only what would end or alter it -/
def write (text : List Char) : List Char := '"' :: text.flatMap writeChar ++ ['"']

/-! ## Reading -/

/-- may this character follow a backslash in an escape pair -/
def isEscaped (c : Char) : Bool := c == '"' || c == '\\' || c == 'n'

/-- splits at the first quote outside all pairs -/
def splitAtFree : List Char → Option (List Char × List Char)
  | [] => none
  | '"' :: rest => some ([], rest)
  | '\\' :: c :: rest =>
    if isEscaped c then (splitAtFree rest).map fun p => ('\\' :: c :: p.1, p.2)
    else (splitAtFree (c :: rest)).map fun p => ('\\' :: p.1, p.2)
  | c :: rest => (splitAtFree rest).map fun p => (c :: p.1, p.2)

/-- splits at the last quote -/
def splitAtLast : List Char → Option (List Char × List Char)
  | [] => none
  | c :: rest =>
    match splitAtLast rest with
    | some p => some (c :: p.1, p.2)
    | none => if c = '"' then some ([], rest) else none

/-- what an opening quote encloses on its line, and what follows the closing quote; none if nothing closes it -/
def split (afterQuote : List Char) : Option (List Char × List Char) :=
  match splitAtFree afterQuote with
  | some p => some p
  | none => splitAtLast afterQuote

/-- the text that the characters between two quotes spell -/
def contents : List Char → List Char
  | '\\' :: '"' :: rest => '"' :: contents rest
  | '\\' :: '\\' :: rest => '\\' :: contents rest
  | '\\' :: 'n' :: rest => '\n' :: contents rest
  | c :: rest => c :: contents rest
  | [] => []

/-! ## What follows a literal is shorter -/

theorem splitAtFree_length {cs : List Char} {p : List Char × List Char} (h : splitAtFree cs = some p) :
    p.2.length < cs.length := by
  fun_induction splitAtFree cs generalizing p with
  | case1 => simp at h
  | case2 rest => simp only [Option.some.injEq] at h; subst h; simp
  | case3 c rest _ ih =>
    obtain ⟨q, hq, rfl⟩ := Option.map_eq_some_iff.1 h
    have := ih hq; simp only [List.length_cons]; omega
  | case4 c rest _ ih =>
    obtain ⟨q, hq, rfl⟩ := Option.map_eq_some_iff.1 h
    have := ih hq; simp only [List.length_cons] at this ⊢; omega
  | case5 c rest _ _ ih =>
    obtain ⟨q, hq, rfl⟩ := Option.map_eq_some_iff.1 h
    have := ih hq; simp only [List.length_cons]; omega

theorem splitAtLast_length {cs : List Char} {p : List Char × List Char} (h : splitAtLast cs = some p) :
    p.2.length < cs.length := by
  induction cs generalizing p with
  | nil => simp [splitAtLast] at h
  | cons c rest ih =>
    unfold splitAtLast at h
    split at h
    · rename_i q hq
      simp only [Option.some.injEq] at h; subst h
      have := ih hq; simp only [List.length_cons]; omega
    · split at h
      · simp only [Option.some.injEq] at h; subst h; simp
      · simp at h

theorem split_length {cs : List Char} {p : List Char × List Char} (h : split cs = some p) :
    p.2.length < cs.length := by
  unfold split at h
  split at h
  · rename_i q hq; simp only [Option.some.injEq] at h; subst h; exact splitAtFree_length hq
  · exact splitAtLast_length h

end Stone.Literal
