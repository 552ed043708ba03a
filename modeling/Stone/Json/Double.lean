/-
The text of doubles in JSON: the fewest digits that read back to the same double, and of those the nearest to it.
Numbers whose first digit has an exponent from -5 to 15 are written positionally, with at least one fraction digit; all
others with an exponent that shows its sign.

Digits are chosen in exact arithmetic on naturals. A positive double is `m * 2^q`; the reals that round to it form an
interval, ends included if `m` is even, and the grids of multiples of `10^p` are tried from coarse to fine.
-/

namespace Stone.Json

/-! ## Choice of digits -/

/-- a positive double, `mantissa * 2^exponent`; `tight` if the double below is only half as far away as the one above -/
structure Binary where
  mantissa : Nat
  exponent : Int
  tight : Bool

/-- the parts of a finite positive double -/
def Binary.ofBits (bits : Nat) : Binary :=
  let fraction : Nat := bits % Nat.pow 2 52
  let biased : Nat := bits / Nat.pow 2 52 % Nat.pow 2 11
  if biased = 0 then ⟨fraction, -1074, false⟩
  else ⟨fraction + Nat.pow 2 52, (biased : Int) - 1075, fraction = 0 ∧ 1 < biased⟩

/-- `n * base^e` as a fraction of naturals -/
def scaled (n base : Nat) (e : Int) : Nat × Nat :=
  if e < 0 then (n, Nat.pow base e.natAbs) else (n * Nat.pow base e.natAbs, 1)

/-- the order of `quarters * 2^(exponent - 2)` and `digits * 10^place` -/
def compareAt (exponent place : Int) (quarters digits : Nat) : Ordering :=
  let a := scaled quarters 2 (exponent - 2)
  let b := scaled digits 10 place
  compare (a.1 * b.2) (b.1 * a.2)

/-- does `digits * 10^place` round to the double -/
def Binary.readsBack (b : Binary) (place : Int) (digits : Nat) : Bool :=
  let low := compareAt b.exponent place (4 * b.mantissa - if b.tight then 1 else 2) digits
  let high := compareAt b.exponent place (4 * b.mantissa + 2) digits
  if b.mantissa % 2 = 0 then low.isLE && high.isGE else low.isLT && high.isGT

/-- the multiple of `10^place` at or below the double, in units of `10^place` -/
def Binary.floorAt (b : Binary) (place : Int) : Nat :=
  let a := scaled b.mantissa 2 b.exponent
  let g := scaled 1 10 place
  a.1 * g.2 / (a.2 * g.1)

/-- the multiple of `10^place` that reads back, the nearer of two, and of two equally near ones the even one -/
def Binary.choose? (b : Binary) (place : Int) : Option Nat :=
  let n := b.floorAt place
  match b.readsBack place n, b.readsBack place (n + 1) with
  | false, false => none
  | true, false => some n
  | false, true => some (n + 1)
  | true, true =>
    let a := scaled (2 * b.mantissa) 2 b.exponent
    let g := scaled (2 * n + 1) 10 place
    match compare (a.1 * g.2) (g.1 * a.2) with
    | .lt => some n
    | .gt => some (n + 1)
    | .eq => some (if n % 2 = 0 then n else n + 1)

/-- tries the grids from `place` on downwards -/
def Binary.search (b : Binary) (place : Int) : Nat → Nat × Int
  | 0 => (b.floorAt place, place)
  | tries + 1 =>
    match b.choose? place with
    | some n => (n, place)
    | none => b.search (place - 1) tries

/-- a place above the first digit of the double: `2^e` is below `10^(e / 3 + 1)` -/
def Binary.topPlace (b : Binary) : Int :=
  let e := b.exponent + (b.mantissa.log2 : Int) + 1
  if e < 0 then e.tdiv 4 + 1 else e.tdiv 3 + 1

/-! ## Layout -/

/-- the layout of digits whose first one stands at `10^exponent` -/
def layout (digits : List Char) (exponent : Int) : List Char :=
  if -5 ≤ exponent ∧ exponent ≤ 15 then
    if exponent < 0 then
      '0' :: '.' :: List.replicate (exponent.natAbs - 1) '0' ++ digits
    else
      let whole := digits.take (exponent.natAbs + 1)
      let fraction := digits.drop (exponent.natAbs + 1)
      whole.rightpad (exponent.natAbs + 1) '0' ++ '.' :: (if fraction = [] then ['0'] else fraction)
  else
    let fraction := digits.tail
    digits.take 1 ++ (if fraction = [] then [] else '.' :: fraction) ++
      'e' :: (if exponent < 0 then '-' else '+') :: Nat.toDigits 10 exponent.natAbs

/-- the text of a positive double from its bits -/
def positiveText (bits : Nat) : List Char :=
  let b := Binary.ofBits bits
  let (n, place) := b.search b.topPlace 800
  let digits := Nat.toDigits 10 n
  let shown := (digits.reverse.dropWhile (· == '0')).reverse
  layout shown (place + (digits.length : Int) - 1)

/-- the text of a finite double -/
def doubleChars (x : Float) : List Char :=
  let bits := x.toBits.toNat
  let magnitude := bits % Nat.pow 2 63
  let text := if magnitude = 0 then ['0', '.', '0'] else positiveText magnitude
  if Nat.pow 2 63 ≤ bits then '-' :: text else text

end Stone.Json
