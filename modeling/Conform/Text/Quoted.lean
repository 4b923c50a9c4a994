import Conform.Text.Unprintable
/-!
# Quoted text for messages

Text between double quotes in which every character has a visible shape: the quote, the backslash
and the usual controls are written with a backslash, other unprintable characters by their
hexadecimal code point.
-/

namespace Conform.Text

/-- A character as it stands inside quotes. -/
def quoteChar (c : Char) : List Char :=
  if c = '\x00' then ['\\', '0']
  else if c = '\t' then ['\\', 't']
  else if c = '\r' then ['\\', 'r']
  else if c = '\n' then ['\\', 'n']
  else if c = '\\' || c = '"' then ['\\', c]
  else if isUnprintable c then ['\\', 'u', '\x7b'] ++ Nat.toDigits 16 c.toNat ++ ['\x7d']
  else [c]

/-- The text between quotes. -/
def quoted (s : String) : String :=
  String.ofList ('"' :: s.toList.flatMap quoteChar ++ ['"'])

end Conform.Text
