/-
Scientific notation, and the reader of decimals. A text in scientific notation is a decimal, `e` or `E`, and a whole
exponent of ten. `readChars?` takes a text in plain notation if it can and in scientific notation otherwise.

A negative exponent adds places to the number as written. One that is not negative takes places away, and only when none
are left it makes the coefficient longer. The exponent never rounds a digit off: a number that would need it is refused.
-/
import Stone.Decimal.Text

namespace Stone.Decimal

/-! ## Powers of ten -/

/-- the number divided by `10^exponent`, with as many places more -/
def shiftDown? (d : Decimal) (exponent : Nat) : Option Decimal :=
  ofParts? d.negative d.coefficient (d.scale + exponent)

/-- the number times `10^exponent`, with as many places less, or none and a longer coefficient -/
def shiftUp? (d : Decimal) (exponent : Nat) : Option Decimal :=
  if exponent ≤ d.scale then ofParts? d.negative d.coefficient (d.scale - exponent)
  else if exponent ≤ maxScale then ofParts? d.negative (d.coefficient * Nat.pow 10 (exponent - d.scale)) 0
  else none

/-! ## Reading -/

/-- what stands between a number and its exponent -/
def isExponentMark (c : Char) : Bool := c == 'e' || c == 'E'

/-- the natural number of one digit or more -/
def natural? (cs : List Char) : Option Nat :=
  if cs.isEmpty then none
  else cs.foldlM (fun n c => (digit? c).map fun d => 10 * n + d) 0

/-- the size of an exponent, with or without a plus sign -/
def exponent? : List Char → Option Nat
  | '+' :: rest => natural? rest
  | cs => natural? cs

/-- the decimal that a text in scientific notation spells -/
def readScientific? (cs : List Char) : Option Decimal := do
  let d ← readPlain? (cs.takeWhile fun c => !isExponentMark c)
  match cs.dropWhile fun c => !isExponentMark c with
  | [] => none
  | _ :: '-' :: rest => d.shiftDown? (← exponent? rest)
  | _ :: rest => d.shiftUp? (← exponent? rest)

/-- the decimal that a text spells, in plain or else in scientific notation -/
def readChars? (cs : List Char) : Option Decimal :=
  match readPlain? cs with
  | some d => some d
  | none => readScientific? cs

def read? (text : String) : Option Decimal := readChars? text.toList

end Stone.Decimal
