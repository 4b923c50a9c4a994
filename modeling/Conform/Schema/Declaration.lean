import Conform.Markup.Element
import Conform.Occurs.Basic
import Conform.Schema.Handle
/-!
# Element declarations

A declaration gives the elements of a name their type, their default and their identity
constraints. An alternative replaces the type by what an attribute says.
-/

namespace Conform

/-- A type for the elements with an attribute, of a given value if there is one. -/
structure Alternative where
  name : QName
  equals : Option String
  type : TypeId
deriving DecidableEq, Repr

/-- Whether an element passes the test of the alternative. -/
def Alternative.passes (a : Alternative) (e : Element) : Bool :=
  match a.equals with
  | none => (e.attribute? a.name).isSome
  | some value => (e.attribute? a.name).map Text.trim = some value

/-- The declaration of the elements of a name. -/
structure Declaration where
  name : QName
  type : TypeId
  occurs : Occurs
  nillable : Bool
  default : Option String
  fixed : Option String
  identities : List IdentityId
  alternatives : List Alternative
  isGlobal : Bool
  parent : Option GroupId
deriving DecidableEq, Repr, Inhabited

namespace Declaration

/-- A declaration that occurs once and has nothing but a type. -/
def simple (name : QName) (type : TypeId) : Declaration :=
  ⟨name, type, Occurs.once, false, none, none, [], [], false, none⟩

def passes (d : Declaration) (n : QName) : Bool := d.name = n

/-- The fixed value, or else the default. -/
def valueConstraint (d : Declaration) : Option String := d.fixed.or d.default

/-- The type for an element: the one of the first alternative that it passes, or else the
declared one. -/
def selectType (d : Declaration) (e : Element) : TypeId :=
  ((d.alternatives.find? (·.passes e)).map (·.type)).getD d.type

end Declaration

end Conform
