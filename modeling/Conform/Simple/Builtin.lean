import Conform.Diagnostic
import Conform.Name.Basic
import Conform.Name.Plain
import Conform.Simple.WhiteSpace
/-!
# Builtin types

The types of leaf values: which texts they have, which values the texts stand for, and which text a
value is written as. Integers are kept in canonical form, decimals with their ending zeros removed;
a decimal whose whole part does not fit in 96 bits keeps all its digits.
-/

namespace Conform

/-- A builtin type of leaf values. -/
inductive Builtin where
  | string
  | token
  | boolean
  | integer
  | nonNegativeInteger
  | positiveInteger
  | decimal
  | qualifiedName
deriving DecidableEq, Repr

namespace Builtin

def all : List Builtin :=
  [string, token, boolean, integer, nonNegativeInteger, positiveInteger, decimal, qualifiedName]

/-- The local name of the type. -/
def base : Builtin → String
  | string => "string"
  | token => "token"
  | boolean => "boolean"
  | integer => "integer"
  | nonNegativeInteger => "nonNegativeInteger"
  | positiveInteger => "positiveInteger"
  | decimal => "decimal"
  | qualifiedName => "QName"

def ofBase? (name : String) : Option Builtin := all.find? fun b => name = b.base

/-- The name of the type in the namespace of schemas. -/
def name (b : Builtin) : QName := ⟨QName.schemaSpace, b.base⟩

/-- The name of the type in messages. -/
def label (b : Builtin) : String := "xs:" ++ b.base

def whiteSpace : Builtin → WhiteSpace
  | string => .preserve
  | _ => .collapse

/-- The value of a text that has its white space normalized. -/
def readBoolean (cs : List Char) : Except LeafReason Json :=
  let s := String.ofList cs
  if s = "true" ∨ s = "1" then .ok (.bool true)
  else if s = "false" ∨ s = "0" then .ok (.bool false)
  else .error .notBoolean

/-- What a type of integers demands of the sign and of whether the number is zero. -/
def checkSign (b : Builtin) (negative isZero : Bool) : Except LeafReason Unit :=
  match b with
  | nonNegativeInteger => if negative && !isZero then .error .isNegative else .ok ()
  | positiveInteger => if negative || isZero then .error .notPositive else .ok ()
  | _ => .ok ()

/-- The integer that a text writes, in canonical form. -/
def readInteger (b : Builtin) (cs : List Char) : Except LeafReason Json := do
  let (negative, digits) := Integer.readSign cs
  if Integer.isDigits digits then
    b.checkSign negative (Integer.significant digits).isEmpty
    return .number (String.ofList (Integer.canonical negative digits))
  else throw .notInteger

/-- A sign, the digits before the point and those after it. -/
structure DecimalText where
  negative : Bool
  whole : List Char
  fraction : List Char
deriving DecidableEq, Repr

/-- The parts of a decimal number, if a text is one. -/
def DecimalText.read? (cs : List Char) : Option DecimalText :=
  let (negative, unsigned) := Integer.readSign cs
  let (whole, fraction) := (Text.cut '.' unsigned).getD (unsigned, [])
  if (whole.isEmpty && fraction.isEmpty) || !whole.all Char.isDigit || !fraction.all Char.isDigit
  then none
  else some ⟨negative, whole, fraction⟩

/-- The parts as text, without zeros in front and at the end. -/
def DecimalText.text (t : DecimalText) : List Char :=
  let whole := match Integer.significant t.whole with
    | [] => ['0']
    | digits => digits
  let fraction := (t.fraction.reverse.dropWhile (· = '0')).reverse
  (if t.negative then ['-'] else []) ++ whole ++
    (if fraction.isEmpty then [] else '.' :: fraction)

/-- The decimal number that a text writes, rounded to 96 bits if its whole part fits in them. -/
def readDecimal (cs : List Char) : Except LeafReason Json :=
  match DecimalText.read? cs with
  | none => .error .notDecimal
  | some t =>
    match Decimal.read? t.text with
    | some d => .ok (.number d.normalize.text)
    | none => .ok (.number (String.ofList t.text))

/-- A name with at most one prefix. -/
def readName (cs : List Char) : Except LeafReason Json :=
  let isName := match Text.cut ':' cs with
    | some (label, base) => isPlainName label && isPlainName base
    | none => isPlainName cs
  if isName then .ok (.text (String.ofList cs)) else .error .notName

/-- The value of a text that has its white space normalized. -/
def read (b : Builtin) (cs : List Char) : Except LeafReason Json :=
  match b with
  | string | token => .ok (.text (String.ofList cs))
  | boolean => readBoolean cs
  | integer | nonNegativeInteger | positiveInteger => b.readInteger cs
  | decimal => readDecimal cs
  | qualifiedName => readName cs

/-- The value that a text stands for. -/
def decode (b : Builtin) (s : String) : Except DecodeFault Json :=
  let cs := b.whiteSpace.normalize s.toList
  match b.read cs with
  | .ok v => .ok v
  | .error reason => .error ⟨String.ofList cs, reason, some b.label⟩

/-- Whether a text stands for a value. -/
def isValid (b : Builtin) (s : String) : Bool := (b.decode s).isOk

/-- The text that stands for a value. -/
def encode (b : Builtin) (v : Json) : Except EncodeFault String :=
  let refuse (reason : LeafReason) : Except EncodeFault String := .error ⟨v.print, reason⟩
  match b, v with
  | string, .text s | token, .text s => .ok s
  | qualifiedName, .text s => if b.isValid s then .ok s else refuse (.notOfType b.label)
  | boolean, .bool x => .ok (if x then "true" else "false")
  | integer, .number t | nonNegativeInteger, .number t | positiveInteger, .number t =>
    match b.decode t with
    | .ok _ => .ok t
    | .error fault => refuse fault.reason
  | decimal, .number t => .ok t
  | _, _ => refuse (.notOfType b.label)

end Builtin

end Conform
