import Conform.Text.Cut
/-!
# Decimal numbers of bounded precision

A decimal number is a sign, a mantissa of 96 bits and a scale of at most 28 places. Text is read
digit by digit until the mantissa or the scale is full; the next digit then rounds the number and
the digits after it are dropped.
-/

namespace Conform

/-- The number `mantissa / 10 ^ scale`, with a sign. -/
structure Decimal where
  negative : Bool
  mantissa : Nat
  scale : Nat
  mantissa_lt : mantissa < Nat.pow 2 96
  scale_le : scale ≤ 28
deriving DecidableEq, Repr

namespace Decimal

def zero : Decimal := ⟨false, 0, 0, by decide, by decide⟩

instance : Inhabited Decimal := ⟨zero⟩

/-- The number of the parts, if they fit. -/
def ofParts? (negative : Bool) (mantissa scale : Nat) : Option Decimal :=
  if h : mantissa < Nat.pow 2 96 ∧ scale ≤ 28 then some ⟨negative, mantissa, scale, h.1, h.2⟩ else none

/-- The parts after a digit that did not fit: five and more round up. If the mantissa then
overflows, it gives up its last place. -/
def round (mantissa scale digit : Nat) : Option (Nat × Nat) :=
  if digit < 5 then some (mantissa, scale)
  else if mantissa + 1 < Nat.pow 2 96 then some (mantissa + 1, scale)
  else if scale = 0 then none
  else some ((mantissa + 5) / 10, scale - 1)

/-- Mantissa and scale of the digits after the point. -/
def readFraction : Nat → Nat → List Char → Option (Nat × Nat)
  | mantissa, scale, [] => some (mantissa, scale)
  | mantissa, scale, c :: rest =>
    if c.isDigit then
      let digit := c.toNat - 48
      if scale < 28 ∧ mantissa * 10 + digit < Nat.pow 2 96 then
        readFraction (mantissa * 10 + digit) (scale + 1) rest
      else if rest.all Char.isDigit then round mantissa scale digit
      else none
    else none

/-- Mantissa and scale of a number without its sign. -/
def readWhole : Nat → List Char → Option (Nat × Nat)
  | mantissa, [] => some (mantissa, 0)
  | mantissa, c :: rest =>
    if c.isDigit then
      let digit := c.toNat - 48
      if mantissa * 10 + digit < Nat.pow 2 96 then readWhole (mantissa * 10 + digit) rest else none
    else if c = '.' then readFraction mantissa 0 rest
    else none

/-- Whether a text begins with a digit, or with a point and a digit. -/
def startsNumber : List Char → Bool
  | '.' :: c :: _ => c.isDigit
  | c :: _ => c.isDigit
  | [] => false

/-- The number that a text writes, without exponent. A text whose whole part needs more than 96
bits writes none. -/
def read? (cs : List Char) : Option Decimal :=
  let (negative, unsigned) := match cs with
    | '-' :: rest => (true, rest)
    | '+' :: rest => (false, rest)
    | _ => (false, cs)
  if startsNumber unsigned then
    match readWhole 0 unsigned with
    | some (mantissa, scale) => ofParts? negative mantissa scale
    | none => none
  else none

/-- The natural number that the digits write, a plus in front allowed. -/
def readExponent? (cs : List Char) : Option Nat :=
  let digits := Text.dropStart ['+'] cs
  if digits ≠ [] ∧ digits.all Char.isDigit then some (Nat.ofDigitChars 10 digits 0) else none

/-- The number with the point moved to the right by `exponent` places, at most 28. -/
def shiftRight? (d : Decimal) (exponent : Nat) : Option Decimal :=
  if exponent ≤ d.scale then ofParts? d.negative d.mantissa (d.scale - exponent)
  else if exponent ≤ 28 then ofParts? d.negative (d.mantissa * Nat.pow 10 (exponent - d.scale)) 0
  else none

/-- The mantissa without its last `places` digits, rounded to nearest; a half goes up. -/
def dropPlaces (mantissa places : Nat) : Nat := (mantissa + Nat.pow 10 places / 2) / Nat.pow 10 places

/-- The number with the point moved to the left by `exponent` places, at most 28. Places beyond the
greatest scale are rounded away. -/
def shiftLeft? (d : Decimal) (exponent : Nat) : Option Decimal :=
  if exponent ≤ 28 then
    let places := d.scale + exponent
    ofParts? d.negative (dropPlaces d.mantissa (places - 28)) (Min.min places 28)
  else none

/-- The number that a text with an exponent writes: the one before the exponent, with its point
moved. -/
def readScientific? (cs : List Char) : Option Decimal := do
  let (base, exponent) ← Text.cut 'e' cs
  let d ← read? base
  match exponent with
  | '-' :: digits => d.shiftLeft? (← readExponent? digits)
  | digits => d.shiftRight? (← readExponent? digits)

/-- Mantissa and scale without zeros at the end of the fraction. -/
def stripZeros : Nat → Nat → Nat × Nat
  | mantissa, 0 => (mantissa, 0)
  | mantissa, scale + 1 =>
    if mantissa % 10 = 0 then stripZeros (mantissa / 10) scale else (mantissa, scale + 1)

private theorem stripZeros_le (mantissa scale : Nat) :
    (stripZeros mantissa scale).1 ≤ mantissa ∧ (stripZeros mantissa scale).2 ≤ scale := by
  induction scale generalizing mantissa with
  | zero => simp [stripZeros]
  | succ scale ih =>
    unfold stripZeros
    split
    · have := ih (mantissa / 10)
      omega
    · simp

/-- The same number without zeros at the end of the fraction; zero has neither sign nor scale. -/
def normalize (d : Decimal) : Decimal :=
  if d.mantissa = 0 then zero
  else
    ⟨d.negative, (stripZeros d.mantissa d.scale).1, (stripZeros d.mantissa d.scale).2,
      Nat.lt_of_le_of_lt (stripZeros_le _ _).1 d.mantissa_lt,
      Nat.le_trans (stripZeros_le _ _).2 d.scale_le⟩

/-- The digits with a point before the last `scale` of them, and a zero in front of the point if no
digit stands there. -/
def text (d : Decimal) : String :=
  let digits := Nat.toDigits 10 d.mantissa
  let padded := List.replicate (d.scale + 1 - digits.length) '0' ++ digits
  let whole := padded.take (padded.length - d.scale)
  let fraction := padded.drop (padded.length - d.scale)
  String.ofList ((if d.negative then ['-'] else []) ++ whole ++
    (if d.scale = 0 then [] else '.' :: fraction))

/-- The integer that the number is, if it has no fraction. -/
def toInt? (d : Decimal) : Option Int :=
  if d.scale = 0 then some (if d.negative then -(d.mantissa : Int) else d.mantissa) else none

end Decimal

end Conform
