/-!
# Entities

Character data with references: a name or a number between an ampersand and a semicolon stands for
one character.
-/

namespace Conform.Markup

/-- The character with a code point other than zero. -/
def ofCodePoint? (n : Nat) : Option Char :=
  if n ≠ 0 ∧ (n < 0xD800 ∨ (0xE000 ≤ n ∧ n < 0x110000)) then some (Char.ofNat n) else none

/-- The value of a hexadecimal digit. -/
def hexDigit? (c : Char) : Option Nat :=
  if c.isDigit then some (c.toNat - 48)
  else if 'a' ≤ c ∧ c ≤ 'f' then some (c.toNat - 87)
  else if 'A' ≤ c ∧ c ≤ 'F' then some (c.toNat - 55)
  else none

/-- The number of at most seven decimal digits. -/
def decimalCode? (digits : List Char) : Option Nat :=
  if digits.length ≤ 7 ∧ digits.all Char.isDigit then some (Nat.ofDigitChars 10 digits 0) else none

/-- The number of at most six hexadecimal digits. -/
def hexCode? (digits : List Char) : Option Nat :=
  if digits.length ≤ 6 then
    digits.foldlM (fun n c => (hexDigit? c).map fun d => n * 16 + d) 0
  else none

/-- The character that a reference stands for. -/
def reference? : List Char → Option Char
  | '#' :: 'x' :: digits => (hexCode? digits).bind ofCodePoint?
  | '#' :: digits => (decimalCode? digits).bind ofCodePoint?
  | name =>
    match String.ofList name with
    | "lt" => some '<'
    | "gt" => some '>'
    | "amp" => some '&'
    | "apos" => some '\''
    | "quot" => some '"'
    | _ => none

/-- The text after `pending`, the characters of an open reference in reverse. -/
def unescapeFrom : Option (List Char) → List Char → Option (List Char)
  | none, [] => some []
  | some _, [] => none
  | none, c :: rest =>
    if c = '&' then unescapeFrom (some []) rest else (unescapeFrom none rest).map (c :: ·)
  | some pending, c :: rest =>
    if c = ';' then
      match reference? pending.reverse with
      | some d => (unescapeFrom none rest).map (d :: ·)
      | none => none
    else if c = '&' then none
    else unescapeFrom (some (c :: pending)) rest

/-- The text with its references replaced, if all of them stand for a character. -/
def unescape (cs : List Char) : Option (List Char) := unescapeFrom none cs

end Conform.Markup
