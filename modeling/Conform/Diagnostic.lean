import Conform.Identity.Value
import Conform.Occurs.Basic
import Conform.Schema.Handle
/-!
# Diagnostics

What a document can do wrong. Every cause has a kind and a wording; a diagnostic is a cause with
the place where it was met, the declaration that was violated and a severity.
-/

namespace Conform

/-- The kinds of diagnostics. -/
inductive DiagnosticKind where
  | children
  | identity
  | decode
  | encode
  | content
  | attributes
  | type
deriving DecidableEq, Repr, Inhabited

def DiagnosticKind.text : DiagnosticKind → String
  | children => "children"
  | identity => "identity"
  | decode => "decode"
  | encode => "encode"
  | content => "content"
  | attributes => "attribute"
  | type => "type"

/-- Only errors make a document invalid. -/
inductive Severity where
  | error
  | warning
deriving DecidableEq, Repr, Inhabited

def Severity.text : Severity → String
  | error => "error"
  | warning => "warning"

/-- A particle as it is named in a diagnostic. -/
structure ParticleLabel where
  name : String
  occurs : Occurs
deriving DecidableEq, Repr

/-- A child that the content model does not admit, or the end of content that is not complete. -/
structure ChildrenFault where
  parent : String
  index : Nat
  /-- The child at the index, if there is one. -/
  child : Option String
  particle : Option ParticleLabel
  /-- How often the particle has occurred. -/
  count : Nat
  expected : Option (List String)
deriving DecidableEq, Repr

namespace ChildrenFault

/-- What is said of the child. -/
def headline (f : ChildrenFault) : String :=
  match f.child with
  | none => "The content of element '" ++ f.parent ++ "' is not complete."
  | some tag =>
    "Unexpected child with tag '" ++ tag ++ "' at position " ++ toString (f.index + 1) ++ "."

/-- What is said of the particle: a count under the minimum, if there is one, or a count that has
reached the maximum. -/
def particleNote (f : ChildrenFault) : String :=
  match f.particle with
  | none => ""
  | some p =>
    let note (bound : String) (limit : UInt32) : String :=
      " The particle " ++ p.name ++ " occurs " ++ toString f.count ++ " times but the " ++ bound ++
        " is " ++ toString limit.toNat ++ "."
    if 0 < f.count ∧ p.occurs.isMissing f.count then note "minimum" p.occurs.min
    else match p.occurs.max with
      | some m => if p.occurs.isOver f.count then note "maximum" m else ""
      | none => ""

/-- What is said of the tags that could stand there instead. -/
def expectedNote (f : ChildrenFault) : String :=
  match f.expected with
  | none | some [] => ""
  | some [tag] => " Tag " ++ tag ++ " expected."
  | some tags => " Tag (" ++ String.intercalate " | " tags ++ ") expected."

def message (f : ChildrenFault) : String := f.headline ++ f.particleNote ++ f.expectedNote

end ChildrenFault

/-- Why a text is no value of a type, or a value has no text in it. -/
inductive LeafReason where
  | notBoolean
  | notInteger
  | isNegative
  | notPositive
  | notDecimal
  | notName
  /-- The value is not of the type with this name. -/
  | notOfType (name : String)
  | stated (text : String)
deriving DecidableEq, Repr

def LeafReason.message : LeafReason → String
  | notBoolean => "invalid literal for a boolean"
  | notInteger => "invalid literal for an integer"
  | isNegative => "value must be non negative"
  | notPositive => "value must be positive"
  | notDecimal => "invalid literal for a decimal"
  | notName => "invalid QName"
  | notOfType name => "not a valid value for " ++ name
  | stated text => text

/-- A text that is no value of a type. -/
structure DecodeFault where
  value : String
  reason : LeafReason
  target : Option String
deriving DecidableEq, Repr

def DecodeFault.message (f : DecodeFault) : String :=
  "failed decoding '" ++ f.value ++ "'" ++ (f.target.elim "" (" with " ++ ·)) ++ ": " ++
    f.reason.message

/-- A value that has no text in a type. -/
structure EncodeFault where
  value : String
  reason : LeafReason
deriving DecidableEq, Repr

def EncodeFault.message (f : EncodeFault) : String :=
  "failed encoding '" ++ f.value ++ "': " ++ f.reason.message

/-- What an identity constraint can find wrong. A constraint is named by its display text. -/
inductive IdentityFault where
  /-- A selector has reached an attribute. -/
  | selectsAttribute
  | manyValues (field : String)
  | missingKeyField (field identity : String)
  | duplicate (tuple : FieldTuple) (identity : String)
  /-- A reference to a value that the constraint does not hold. -/
  | dangling (tuple : FieldTuple) (identity : String) (times : Nat)
  | stated (text : String)
deriving DecidableEq, Repr

def IdentityFault.message : IdentityFault → String
  | selectsAttribute => "selector xpath expression can only select elements"
  | manyValues field => "'" ++ field ++ "' field selects multiple values"
  | missingKeyField field identity => "missing key field '" ++ field ++ "' for " ++ identity
  | duplicate tuple identity =>
    "duplicated value " ++ FieldTuple.display tuple ++ " for " ++ identity
  | dangling tuple identity times =>
    "value " ++ FieldTuple.display tuple ++ " not found for " ++ identity ++
      (if 1 < times then " (" ++ toString times ++ " times)" else "")
  | stated text => text

/-- What a document can do wrong. -/
inductive Cause where
  | noRoot
  | undeclaredRoot (tag : String)
  | unknownType (name : String)
  | nilNotEmpty
  | notNillable (tag : String)
  | badNil (value : String)
  | prohibitedAttribute (name : String)
  | undeclaredAttribute (name tag : String)
  | missingAttribute (name : String)
  | attributeNotFixed (value fixed name : String)
  | notEmpty (tag : String)
  | childrenInSimple
  | elementNotFixed (value fixed tag : String)
  | emptyChoice
  | textBetweenChildren
  | undeclaredElement (tag : String)
  | children (fault : ChildrenFault)
  | decode (fault : DecodeFault)
  | encode (fault : EncodeFault)
  | identity (fault : IdentityFault)
  | stated (kind : DiagnosticKind) (text : String)
deriving DecidableEq, Repr

namespace Cause

def kind : Cause → DiagnosticKind
  | noRoot | nilNotEmpty | notEmpty _ | childrenInSimple | elementNotFixed ..
  | textBetweenChildren => .content
  | undeclaredRoot _ | unknownType _ | undeclaredElement _ => .type
  | notNillable _ | badNil _ | prohibitedAttribute _ | undeclaredAttribute .. | missingAttribute _
  | attributeNotFixed .. => .attributes
  | emptyChoice | children _ => .children
  | decode _ => .decode
  | encode _ => .encode
  | identity _ => .identity
  | stated kind _ => kind

def message : Cause → String
  | noRoot => "the document has no root element"
  | undeclaredRoot tag => "'" ++ tag ++ "' is not an element of the schema"
  | unknownType name => "unknown type '" ++ name ++ "' in xsi:type"
  | nilNotEmpty => "xsi:nil='true' but the element is not empty"
  | notNillable tag => "element '" ++ tag ++ "' is not nillable"
  | badNil value => "invalid value '" ++ value ++ "' for xsi:nil"
  | prohibitedAttribute name => "use of attribute '" ++ name ++ "' is prohibited"
  | undeclaredAttribute name tag =>
    "attribute '" ++ name ++ "' not allowed for element '" ++ tag ++ "'"
  | missingAttribute name => "missing required attribute '" ++ name ++ "'"
  | attributeNotFixed value fixed name =>
    "value '" ++ value ++ "' doesn't match the fixed value '" ++ fixed ++ "' of attribute '" ++
      name ++ "'"
  | notEmpty tag => "element '" ++ tag ++ "' must have empty content"
  | childrenInSimple => "a simple content element can't have child elements"
  | elementNotFixed value fixed tag =>
    "value '" ++ value ++ "' doesn't match the fixed value '" ++ fixed ++ "' of element '" ++ tag ++
      "'"
  | emptyChoice => "an empty 'choice' group with minOccurs > 0 cannot validate any content"
  | textBetweenChildren => "character data between child elements not allowed"
  | undeclaredElement tag => "no global declaration found for element '" ++ tag ++ "'"
  | children fault => fault.message
  | decode fault => fault.message
  | encode fault => fault.message
  | identity fault => fault.message
  | stated _ text => text

end Cause

/-- Something that a document does wrong. -/
structure Diagnostic where
  cause : Cause
  path : String
  element : Option ElementId
  severity : Severity
deriving DecidableEq, Repr

namespace Diagnostic

/-- An error at a place. -/
def error (cause : Cause) (path : String) : Diagnostic := ⟨cause, path, none, .error⟩

/-- An error at a place, against a declaration. -/
def errorAt (cause : Cause) (path : String) (element : ElementId) : Diagnostic :=
  ⟨cause, path, some element, .error⟩

def isError (d : Diagnostic) : Bool := d.severity = .error

def kind (d : Diagnostic) : DiagnosticKind := d.cause.kind

def reason (d : Diagnostic) : String := d.cause.message

/-- The reason with the place, a warning marked as such. -/
def text (d : Diagnostic) : String :=
  (if d.isError then "" else "warning: ") ++ d.reason ++
    (if d.path = "" then "" else "\n\nPath: " ++ d.path)

/-- The fields by which other programs tell diagnostics apart. -/
def toJson (d : Diagnostic) : Json :=
  .object [("kind", .text d.kind.text), ("reason", .text d.reason), ("path", .text d.path),
    ("severity", .text d.severity.text)]

end Diagnostic

end Conform
