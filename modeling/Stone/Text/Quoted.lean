/-
Quoted text in what the library shows: string leaves and names escape what cannot be seen, hints in error messages are
ASCII throughout.
-/
import Stone.Text.Printable

namespace Stone.Text

/-- a hexadecimal number in lower case, without leading zeros -/
def hexDigits (n : Nat) : List Char := Nat.toDigits 16 n

/-- the escape `\u` with the code point in braces -/
def codePointEscape (c : Char) : List Char := '\\' :: 'u' :: '\x7b' :: hexDigits c.toNat ++ ['\x7d']

/-! ## Display -/

/-- one character of displayed text -/
def displayChar : Char → List Char
  | '"' => ['\\', '"']
  | '\\' => ['\\', '\\']
  | '\n' => ['\\', 'n']
  | '\r' => ['\\', 'r']
  | '\t' => ['\\', 't']
  | '\x00' => ['\\', '0']
  | c => if isPrintable c then [c] else codePointEscape c

/-- a text in quotes, with everything that cannot be seen escaped -/
def quoted (text : String) : String := String.ofList ('"' :: text.toList.flatMap displayChar ++ ['"'])

/-! ## Hints -/

/-- one character of a hint -/
def asciiChar : Char → List Char
  | '"' => ['\\', '"']
  | '\'' => ['\\', '\'']
  | '\\' => ['\\', '\\']
  | '\n' => ['\\', 'n']
  | '\r' => ['\\', 'r']
  | '\t' => ['\\', 't']
  | c => if 32 ≤ c.toNat && c.toNat < 127 then [c] else codePointEscape c

/-- a text in quotes, in printable ASCII only -/
def asciiQuoted (text : String) : String := String.ofList ('"' :: text.toList.flatMap asciiChar ++ ['"'])

end Stone.Text
