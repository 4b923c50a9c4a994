import Conform.Json.Basic
/-!
# JSON text

Values are written without blanks between the tokens. A control character of a text is written as
an escape, all other characters as they are.
-/

namespace Conform.Json

/-- A character as it stands in a JSON text. -/
def escapeChar (c : Char) : List Char :=
  if c = '"' then ['\\', '"']
  else if c = '\\' then ['\\', '\\']
  else if c = '\x08' then ['\\', 'b']
  else if c = '\x0c' then ['\\', 'f']
  else if c = '\n' then ['\\', 'n']
  else if c = '\r' then ['\\', 'r']
  else if c = '\t' then ['\\', 't']
  else if c.toNat < 32 then
    ['\\', 'u', '0', '0'] ++ [Nat.digitChar (c.toNat / 16), Nat.digitChar (c.toNat % 16)]
  else [c]

/-- A text between double quotes. -/
def printText (s : String) : String :=
  String.ofList ('"' :: s.toList.flatMap escapeChar ++ ['"'])

/-- Texts with commas between them. -/
def commas (parts : List String) : String := String.intercalate "," parts

/-- An object with the fields written as they stand. -/
def printObject (fields : List (String × String)) : String :=
  "\x7b" ++ commas (fields.map fun f => printText f.1 ++ ":" ++ f.2) ++ "\x7d"

/-- A list with the items written as they stand. -/
def printList (items : List String) : String := "[" ++ commas items ++ "]"

mutual

/-- The text of a value. -/
def print : Json → String
  | .null => "null"
  | .bool b => if b then "true" else "false"
  | .number t => t
  | .text s => printText s
  | .list items => printList (printItems items)
  | .object fields => printObject (printFields fields)

/-- The texts of values. -/
def printItems : List Json → List String
  | [] => []
  | v :: rest => print v :: printItems rest

/-- The texts of fields. -/
def printFields : List (String × Json) → List (String × String)
  | [] => []
  | (k, v) :: rest => (k, print v) :: printFields rest

end

end Conform.Json
