import Conform.Listing
import Conform.Schema.Wildcard
import Conform.Simple.Builtin
/-!
# Types of a schema

A simple type decodes text. A complex type says what an element may contain and which attributes
it may carry.
-/

namespace Conform

/-- Whether an attribute may, must or must not be there. -/
inductive AttributeUse where
  | optional
  | required
  | prohibited
deriving DecidableEq, Repr, Inhabited

namespace AttributeUse

def text : AttributeUse → String
  | optional => "optional"
  | required => "required"
  | prohibited => "prohibited"

def ofText (s : String) : Except Failure AttributeUse :=
  match [optional, required, prohibited].find? fun u => s = u.text with
  | some u => .ok u
  | none => .error (.misuse (.badUse s))

end AttributeUse

/-- An attribute that a complex type declares. -/
structure AttributeDeclaration where
  name : QName
  type : TypeId
  use : AttributeUse
  default : Option String
  fixed : Option String
deriving DecidableEq, Repr

namespace AttributeDeclaration

def isRequired (a : AttributeDeclaration) : Bool := a.use = .required

/-- The fixed value, or else the default. -/
def valueConstraint (a : AttributeDeclaration) : Option String := a.fixed.or a.default

end AttributeDeclaration

/-- What an element of a complex type contains. -/
inductive Content where
  | empty
  /-- Text of a simple type. -/
  | simple (type : TypeId)
  /-- Children that a model group describes. -/
  | elementOnly (group : GroupId)
  /-- Children that a model group describes, with text between them. -/
  | mixed (group : GroupId)
deriving DecidableEq, Repr, Inhabited

namespace Content

def label : Content → String
  | empty => "empty"
  | simple _ => "simple"
  | elementOnly _ => "element-only"
  | mixed _ => "mixed"

def group? : Content → Option GroupId
  | elementOnly g | mixed g => some g
  | _ => none

end Content

/-- A type of leaf values. -/
structure SimpleType where
  name : Option QName
  builtin : Builtin
deriving DecidableEq, Repr

/-- A type of elements with attributes. -/
structure ComplexType where
  name : Option QName
  content : Content
  attributes : Listing QName AttributeDeclaration
  anyAttribute : Option AttributeWildcard
deriving DecidableEq, Repr

namespace ComplexType

/-- A type without attributes. -/
def ofContent (content : Content) : ComplexType := ⟨none, content, Listing.empty, none⟩

/-- The type with one more attribute declaration. -/
def withAttribute (t : ComplexType) (a : AttributeDeclaration) : ComplexType :=
  { t with attributes := t.attributes.insert a.name a }

/-- Whether an attribute is declared or passes the wildcard. -/
def admitsAttribute (t : ComplexType) (n : QName) : Bool :=
  t.attributes.contains n || t.anyAttribute.any (·.passes n)

end ComplexType

/-- A type of a schema. -/
inductive TypeDefinition where
  | simple (type : SimpleType)
  | complex (type : ComplexType)
deriving DecidableEq, Repr

instance : Inhabited TypeDefinition := ⟨.simple ⟨none, .string⟩⟩

namespace TypeDefinition

def name? : TypeDefinition → Option QName
  | simple t => t.name
  | complex t => t.name

def asSimple? : TypeDefinition → Option SimpleType
  | simple t => some t
  | complex _ => none

def asComplex? : TypeDefinition → Option ComplexType
  | simple _ => none
  | complex t => some t

/-- The label of the content. A simple type has simple content. -/
def contentLabel : TypeDefinition → String
  | simple _ => "simple"
  | complex t => t.content.label

end TypeDefinition

end Conform
