/-
The text of decimals in plain notation. `digits` writes plain digits with exactly as many fraction digits as the scale
says. `readPlain?` takes an optional sign, digits with at most one point, and underscores after the first digit; it
keeps the scale of what it reads and rounds, a half upwards, only where the coefficient or the scale is full.
-/
import Stone.Decimal.Arithmetic
import Stone.Decimal.Division

namespace Stone.Decimal

/-! ## Writing -/

/-- the digits of `coefficient / 10^scale`, with at least one before the point -/
def unsignedDigits (coefficient scale : Nat) : List Char :=
  let ds := (Nat.toDigits 10 coefficient).leftpad (scale + 1) '0'
  if scale = 0 then ds else ds.take (ds.length - scale) ++ '.' :: ds.drop (ds.length - scale)

def digits (d : Decimal) : List Char :=
  if d.negative then '-' :: unsignedDigits d.coefficient d.scale else unsignedDigits d.coefficient d.scale

/-- the text of a decimal, with its own scale -/
def text (d : Decimal) : String := String.ofList d.digits

/-! ## Reading -/

def digit? (c : Char) : Option Nat := if c.isDigit then some (c.toNat - '0'.toNat) else none

/-- what may follow the digit that settles the rounding -/
def isIgnored (c : Char) : Bool := c.isDigit || c == '_'

/-- rounds a full coefficient by the digit that comes next, a half upwards -/
def roundUp (coefficient scale next : Nat) : Option (Nat × Nat) :=
  if next < 5 then some (coefficient, scale)
  else if coefficient + 1 < coefficientBound then some (coefficient + 1, scale)
  else if scale = 0 then none
  else some ((coefficient + 5) / 10, scale - 1)

/-- coefficients from here on are read with care for the bound, and underscores no longer settle a rounding -/
def largeCoefficient : Nat := 1844674407370954906

/-- settles the rounding of a coefficient whose scale is full by the rest of the text -/
def settle (coefficient scale : Nat) : List Char → Option (Nat × Nat)
  | [] => some (coefficient, scale)
  | c :: rest =>
    if rest.all isIgnored then
      if c = '_' then some (coefficient, scale) else (digit? c).bind (roundUp coefficient scale)
    else none

/-- reads digits, underscores and a point after the sign; `pointed` once the point was met, `begun` once a digit was -/
def readDigits (pointed begun : Bool) (coefficient scale : Nat) : List Char → Option (Nat × Nat)
  | [] => if begun then some (coefficient, scale) else none
  | c :: rest =>
    if c = '.' then if pointed then none else readDigits true begun coefficient scale rest
    else if c = '_' then if begun then readDigits pointed begun coefficient scale rest else none
    else
      match digit? c with
      | none => none
      | some d =>
        let grown := coefficient * 10 + d
        if coefficientBound ≤ grown then
          if pointed && rest.all isIgnored then roundUp coefficient scale d else none
        else if !pointed then readDigits pointed true grown scale rest
        else if scale + 1 < maxScale then readDigits pointed true grown (scale + 1) rest
        else if coefficient < largeCoefficient then settle grown (scale + 1) rest
        else settle grown (scale + 1) (rest.dropWhile (· == '_'))

/-- a decimal from its parts as read -/
def ofRead (negative : Bool) (parts : Nat × Nat) : Option Decimal := ofParts? negative parts.1 parts.2

/-- the decimal that a text spells in plain notation -/
def readPlain? : List Char → Option Decimal
  | '-' :: rest => (readDigits false false 0 0 rest).bind (ofRead true)
  | '+' :: rest => (readDigits false false 0 0 rest).bind (ofRead false)
  | cs => (readDigits false false 0 0 cs).bind (ofRead false)

end Stone.Decimal
