/-
JSON values and their text. Strings escape quotes, backslashes and control characters and nothing else; objects are
written with their keys in the order given, which in this library is sorted. A layout says what stands between the
parts: nothing in compact text, line starts indented by two blanks a level in indented text.

`write` puts the text of a value before a text that follows it, so that each character is written once.
-/
import Stone.Json.Double

namespace Stone

inductive Json where
  | null
  | integer (value : Int)
  | double (value : Float)
  | string (text : String)
  | array (items : List Json)
  | object (fields : List (String × Json))

namespace Json

/-! ## Parts -/

/-- a hexadecimal number of four digits, in lower case -/
def hexFour (n : Nat) : List Char := (Nat.toDigits 16 n).leftpad 4 '0'

/-- one character of a string -/
def stringChar (c : Char) : List Char :=
  if c = '"' then ['\\', '"']
  else if c = '\\' then ['\\', '\\']
  else if c = '\n' then ['\\', 'n']
  else if c = '\r' then ['\\', 'r']
  else if c = '\t' then ['\\', 't']
  else if c.toNat = 8 then ['\\', 'b']
  else if c.toNat = 12 then ['\\', 'f']
  else if c.toNat < 32 then '\\' :: 'u' :: hexFour c.toNat
  else [c]

/-- a string in quotes -/
def stringChars (s : String) : List Char := '"' :: s.toList.flatMap stringChar ++ ['"']

/-- a whole number -/
def integerChars (i : Int) : List Char :=
  if i < 0 then '-' :: Nat.toDigits 10 i.natAbs else Nat.toDigits 10 i.natAbs

/-- what stands between the parts of a text -/
structure Layout where
  /-- the start of a line on a level -/
  lineStart : Nat → List Char
  /-- what follows a key -/
  colon : List Char

namespace Layout

/-- no blanks and no lines -/
def compact : Layout := ⟨fun _ => [], [':']⟩

/-- a line for each part, indented by two blanks a level -/
def indented : Layout := ⟨fun level => '\n' :: List.replicate (2 * level) ' ', [':', ' ']⟩

end Layout

/-! ## Values -/

mutual

/-- the text of a value on a level, before `tail`; empty arrays and objects stay on their line -/
def write (l : Layout) (level : Nat) : Json → List Char → List Char
  | null, tail => "null".toList ++ tail
  | integer i, tail => integerChars i ++ tail
  | double x, tail => doubleChars x ++ tail
  | string s, tail => stringChars s ++ tail
  | array [], tail => '[' :: ']' :: tail
  | array (j :: more), tail =>
    '[' :: l.lineStart (level + 1) ++
      write l (level + 1) j (writeItems l (level + 1) more (l.lineStart level ++ ']' :: tail))
  | object [], tail => '\x7b' :: '\x7d' :: tail
  | object ((key, j) :: more), tail =>
    '\x7b' :: l.lineStart (level + 1) ++ stringChars key ++ l.colon ++
      write l (level + 1) j (writeFields l (level + 1) more (l.lineStart level ++ '\x7d' :: tail))

/-- further items, each after a comma -/
def writeItems (l : Layout) (level : Nat) : List Json → List Char → List Char
  | [], tail => tail
  | j :: more, tail => ',' :: l.lineStart level ++ write l level j (writeItems l level more tail)

/-- further fields, each after a comma -/
def writeFields (l : Layout) (level : Nat) : List (String × Json) → List Char → List Char
  | [], tail => tail
  | (key, j) :: more, tail =>
    ',' :: l.lineStart level ++ stringChars key ++ l.colon ++ write l level j (writeFields l level more tail)

end

/-- the text of a value in a layout -/
def text (l : Layout) (j : Json) : String := String.ofList (write l 0 j [])

def compact (j : Json) : String := j.text .compact

def pretty (j : Json) : String := j.text .indented

end Json

end Stone
