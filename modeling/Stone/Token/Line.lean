/-
Scanning a line into tokens. A line is a run of items with white space between them: comments, digit runs, string
literals, words and marks. `scanLine` answers the tokens of a line, closed by the token of its end, or the first error;
a line with an error gives no token at all.
-/
import Stone.Text.Class
import Stone.Token.Basic
import Stone.Token.Literal

namespace Stone

open Text

/-- why a line has no tokens -/
inductive ScanError where
  /-- a character that starts no item; columns count characters from 1 -/
  | badToken (line column : Nat)
  /-- a digit run that is no number in range -/
  | badNumber (line : Nat) (text : String)
deriving DecidableEq

namespace ScanError

def line : ScanError → Nat
  | badToken line _ => line
  | badNumber line _ => line

def message : ScanError → String
  | badToken line column => s!"bad token at line {line}, column {column}"
  | badNumber line text => s!"number {text} at line {line} is out of range"

end ScanError

/-- the parts of a line, as written -/
inductive Item where
  /-- from two slashes to the end of the line -/
  | comment
  | digits (run : List Char)
  /-- the characters between two quotes -/
  | quoted (enclosed : List Char)
  /-- a word or a mark -/
  | spelled (text : List Char)
deriving DecidableEq

namespace Item

/-- the marks of two characters -/
def doubleMarks : List (Char × Char) := [('=', '='), ('!', '='), ('<', '='), ('>', '='), ('&', '&'), ('|', '|')]

/-- the mark that begins with `c`: of two characters if possible, else one punctuation character -/
def mark? (c : Char) (rest : List Char) : Option (Item × List Char) :=
  match rest with
  | d :: after =>
    if (c, d) ∈ doubleMarks then some (spelled [c, d], after)
    else if isPunctuation c then some (spelled [c], rest) else none
  | [] => if isPunctuation c then some (spelled [c], rest) else none

/-- the item that begins with `c`, and what follows it -/
def next? (c : Char) (rest : List Char) : Option (Item × List Char) :=
  if c = '/' ∧ rest.head? = some '/' then some (comment, [])
  else if isDecimalDigit c then
    some (digits (c :: rest.takeWhile isDecimalDigit), rest.dropWhile isDecimalDigit)
  else if isWordStart c then some (spelled (c :: rest.takeWhile isWordPart), rest.dropWhile isWordPart)
  else if c = '"' then
    match Literal.split rest with
    | some (enclosed, after) => some (quoted enclosed, after)
    | none => mark? c rest
  else mark? c rest

/-- the tokens of an item: none for a comment, one for all others -/
def tokens (line : Nat) : Item → Except ScanError (List Token)
  | comment => .ok []
  | digits run =>
    match Decimal.readPlain? run with
    | some d => .ok [Token.number line d]
    | none => .error (.badNumber line (String.ofList run))
  | quoted enclosed => .ok [Token.string line (String.ofList (Literal.contents enclosed))]
  | spelled text => .ok [Token.identifier line (String.ofList text)]

/-! ## An item takes at least one character -/

theorem length_dropWhile_le {α : Type} (p : α → Bool) (l : List α) : (l.dropWhile p).length ≤ l.length :=
  (List.dropWhile_suffix p).sublist.length_le

theorem mark?_length {c : Char} {rest : List Char} {r : Item × List Char} (h : mark? c rest = some r) :
    r.2.length ≤ rest.length := by
  unfold mark? at h
  split at h
  · split at h
    · simp only [Option.some.injEq] at h; subst h; simp
    · split at h
      · simp only [Option.some.injEq] at h; subst h; simp
      · simp at h
  · split at h
    · simp only [Option.some.injEq] at h; subst h; simp
    · simp at h

theorem next?_length {c : Char} {rest : List Char} {r : Item × List Char} (h : next? c rest = some r) :
    r.2.length ≤ rest.length := by
  unfold next? at h
  split at h
  · simp only [Option.some.injEq] at h; subst h; simp
  · split at h
    · simp only [Option.some.injEq] at h; subst h; exact length_dropWhile_le _ _
    · split at h
      · simp only [Option.some.injEq] at h; subst h; exact length_dropWhile_le _ _
      · split at h
        · split at h
          · rename_i hs; simp only [Option.some.injEq] at h; subst h; exact Nat.le_of_lt (Literal.split_length hs)
          · exact mark?_length h
        · exact mark?_length h

end Item

/-- scans what is left of a line of `width` characters -/
def scanRest (line width : Nat) (cs : List Char) : Except ScanError (List Token) :=
  match _hd : cs.dropWhile isBlank with
  | [] => .ok [Token.lineEnd line]
  | c :: rest =>
    match _hn : Item.next? c rest with
    | none => .error (.badToken line (width - rest.length))
    | some (item, after) => do
      let first ← item.tokens line
      let others ← scanRest line width after
      return first ++ others
termination_by cs.length
decreasing_by
  have h1 := Item.next?_length _hn
  have h2 := Item.length_dropWhile_le isBlank cs
  rw [_hd] at h2
  simp only [List.length_cons] at h1 h2
  omega

/-- the tokens of a line, its end included -/
def scanLine (line : Nat) (cs : List Char) : Except ScanError (List Token) := scanRest line cs.length cs

end Stone
