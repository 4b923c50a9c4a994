import Conform.Identity.Constraint
import Conform.Limits
import Conform.Schema.Declaration
import Conform.Schema.Group
import Conform.Schema.Types
import Conform.Schema.Version
/-!
# Components

The components of a schema, each sort in a list of its own, and the names of those that can be found
by name.
-/

namespace Conform

/-- The components of a schema. -/
structure Components where
  elements : Array Declaration
  groups : Array Group
  wildcards : Array Wildcard
  types : Array TypeDefinition
  identities : Array Constraint
  elementNames : Listing QName ElementId
  typeNames : Listing QName TypeId
  identityNames : Listing QName IdentityId
  limits : Limits
  version : Version
deriving Inhabited

namespace Components

/-- No component. -/
def empty (version : Version) (limits : Limits) : Components where
  elements := #[]
  groups := #[]
  wildcards := #[]
  types := #[]
  identities := #[]
  elementNames := Listing.empty
  typeNames := Listing.empty
  identityNames := Listing.empty
  limits
  version

def element (c : Components) (id : ElementId) : Declaration := c.elements[id.index]?.getD default

def group (c : Components) (id : GroupId) : Group := c.groups[id.index]?.getD default

def wildcard (c : Components) (id : WildcardId) : Wildcard := c.wildcards[id.index]?.getD default

def type (c : Components) (id : TypeId) : TypeDefinition := c.types[id.index]?.getD default

def identity (c : Components) (id : IdentityId) : Constraint := c.identities[id.index]?.getD default

/-- Whether there is a component at a handle. -/
def hasMember (c : Components) : Member → Bool
  | .element id => id.index < c.elements.size
  | .wildcard id => id.index < c.wildcards.size
  | .group id => id.index < c.groups.size

/-- The bounds of a member. -/
def occurs (c : Components) : Member → Occurs
  | .element id => (c.element id).occurs
  | .wildcard id => (c.wildcard id).occurs
  | .group id => (c.group id).occurs

/-- The group that a member belongs to. -/
def parent? (c : Components) : Member → Option GroupId
  | .element id => (c.element id).parent
  | .wildcard id => (c.wildcard id).parent
  | .group id => (c.group id).parent

/-- Whether an element with this name matches a member. A group matches none by itself. -/
def passes (c : Components) (m : Member) (n : QName) : Bool :=
  match m with
  | .element id => (c.element id).passes n
  | .wildcard id => (c.wildcard id).passes n
  | .group _ => false

/-- The groups among the members of a group. -/
def nested (c : Components) (id : GroupId) : List GroupId :=
  (c.group id).members.filterMap Member.asGroup?

/-- All particles: elements, wildcards and groups in order. -/
def particles (c : Components) : List Member :=
  (List.range c.elements.size).map (fun i => .element ⟨i⟩) ++
    (List.range c.wildcards.size).map (fun i => .wildcard ⟨i⟩) ++
    (List.range c.groups.size).map (fun i => .group ⟨i⟩)

/-- A particle as it is named in a diagnostic. -/
def particleLabel (c : Components) (m : Member) (scope : Scope) : ParticleLabel where
  name := match m with
    | .element id => "'" ++ scope.write (c.element id).name ++ "'"
    | .wildcard _ => "any"
    | .group id => (c.group id).compositor.text
  occurs := c.occurs m

/-- The tag of a particle among the expected ones, if it is named there. -/
def expectedTag (c : Components) (m : Member) (scope : Scope) : Option String :=
  match m with
  | .element id => some (scope.write (c.element id).name)
  | .wildcard id => (c.wildcard id).expectedTag
  | .group _ => none

def elementNamed? (c : Components) (n : QName) : Option ElementId := c.elementNames.get? n

def typeNamed? (c : Components) (n : QName) : Option TypeId := c.typeNames.get? n

def identityNamed? (c : Components) (n : QName) : Option IdentityId := c.identityNames.get? n

end Components

end Conform
