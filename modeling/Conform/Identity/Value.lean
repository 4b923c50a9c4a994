import Conform.Json.Printer
import Conform.Number.Decimal
import Conform.Number.Integer
/-!
# Field values

The values by which identity constraints tell elements apart. Numbers count by their value as long
as they fit in 96 bits, and by their text beyond.
-/

namespace Conform

/-- The value of one field of an identity constraint. -/
inductive FieldValue where
  /-- The field selects nothing. -/
  | absent
  | text (s : String)
  /-- An integer of 64 bits. -/
  | integer (n : Int)
  /-- Any other number of 96 bits. -/
  | decimal (d : Decimal)
  | boolean (b : Bool)
deriving DecidableEq, Repr, Inhabited

namespace FieldValue

def isAbsent (v : FieldValue) : Bool := v = absent

/-- The value of a decimal number: an integer if it is one of 64 bits. -/
def ofDecimal (d : Decimal) : FieldValue :=
  match d.normalize.toInt? with
  | some n => if Integer.isWord n then integer n else decimal d.normalize
  | none => decimal d.normalize

/-- The value of the number that a text writes. -/
def ofNumber (t : String) : FieldValue :=
  let cs := t.toList
  match (Integer.read? cs).filter Integer.isWord with
  | some n => integer n
  | none =>
    match (Decimal.read? cs).or (Decimal.readScientific? cs) with
    | some d => ofDecimal d
    | none => text t

/-- The value of a decoded leaf. -/
def ofJson : Json → FieldValue
  | .null => absent
  | .bool b => boolean b
  | .number t => ofNumber t
  | .text s => text s
  | v => text v.print

/-- A text in single quotes, or in double quotes if it holds only single ones. A single quote inside
single quotes has a backslash in front. -/
def quote (s : String) : String :=
  let cs := s.toList
  if cs.contains '\'' && !cs.contains '"' then "\"" ++ s ++ "\""
  else
    String.ofList ('\'' :: cs.flatMap (fun c => if c = '\'' then ['\\', '\''] else [c]) ++ ['\''])

/-- A value as it stands in messages. -/
def display : FieldValue → String
  | absent => "None"
  | text s => quote s
  | integer n => Integer.text n
  | decimal d => d.text
  | boolean b => if b then "True" else "False"

end FieldValue

/-- The values of all fields of a constraint. -/
abbrev FieldTuple := List FieldValue

namespace FieldTuple

def isAllAbsent (t : FieldTuple) : Bool := t.all FieldValue.isAbsent

/-- The position of the first field that selects nothing. -/
def firstAbsent? (t : FieldTuple) : Option Nat := t.findIdx? FieldValue.isAbsent

/-- The values in parentheses, with a comma after a lone one. -/
def display (t : FieldTuple) : String :=
  "(" ++ String.intercalate ", " (t.map FieldValue.display) ++ (if t.length = 1 then ",)" else ")")

end FieldTuple

end Conform
