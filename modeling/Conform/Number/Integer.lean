import Conform.Text.Cut
/-!
# Integers as text

An integer is written as digits with an optional sign. Its canonical text has no plus sign, no
zeros in front and no sign for zero.
-/

namespace Conform.Integer

/-- Whether a minus stands in front, and the text without its sign. -/
def readSign : List Char → Bool × List Char
  | '-' :: rest => (true, rest)
  | '+' :: rest => (false, rest)
  | cs => (false, cs)

/-- At least one digit and nothing else. -/
def isDigits (cs : List Char) : Bool := !cs.isEmpty && cs.all Char.isDigit

/-- The integer that a text writes. -/
def read? (cs : List Char) : Option Int :=
  let (negative, digits) := readSign cs
  if isDigits digits then
    some (if negative then -(Nat.ofDigitChars 10 digits 0 : Int) else Nat.ofDigitChars 10 digits 0)
  else none

/-- The digits without the zeros in front. -/
def significant (digits : List Char) : List Char := digits.dropWhile (· = '0')

/-- The canonical text of the integer with the sign and the digits. -/
def canonical (negative : Bool) (digits : List Char) : List Char :=
  match significant digits with
  | [] => ['0']
  | rest => if negative then '-' :: rest else rest

/-- The integer fits in a signed word of 64 bits. -/
def isWord (n : Int) : Bool := -(Nat.pow 2 63) ≤ n && n < Nat.pow 2 63

/-- The text of an integer. -/
def text (n : Int) : String :=
  String.ofList ((if n < 0 then ['-'] else []) ++ Nat.toDigits 10 n.natAbs)

end Conform.Integer
