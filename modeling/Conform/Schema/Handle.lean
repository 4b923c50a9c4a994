/-!
# Handles

The components of a schema stand in one list for each sort of component. A handle is a position
in such a list, and the member of a group is the handle of an element, a wildcard or a group.
-/

namespace Conform

/-- The sorts of components of a schema. -/
inductive Component where
  | element
  | group
  | wildcard
  | type
  | identity
deriving DecidableEq, Repr

def Component.label : Component → String
  | .element => "element"
  | .group => "group"
  | .wildcard => "any"
  | .type => "type"
  | .identity => "identity"

/-- The position of a component among those of its sort. -/
structure Handle (sort : Component) where
  index : Nat
deriving DecidableEq, Repr, Inhabited

abbrev ElementId := Handle .element
abbrev GroupId := Handle .group
abbrev WildcardId := Handle .wildcard
abbrev TypeId := Handle .type
abbrev IdentityId := Handle .identity

/-- The sort and the position. -/
def Handle.text {sort : Component} (h : Handle sort) : String :=
  sort.label ++ "#" ++ toString h.index

/-- A particle of a model group. -/
inductive Member where
  | element (id : ElementId)
  | wildcard (id : WildcardId)
  | group (id : GroupId)
deriving DecidableEq, Repr, Inhabited

namespace Member

def isGroup : Member → Bool
  | group _ => true
  | _ => false

def asGroup? : Member → Option GroupId
  | group id => some id
  | _ => none

def text : Member → String
  | element id => id.text
  | wildcard id => id.text
  | group id => id.text

end Member

/-- How a model group combines its members. -/
inductive Compositor where
  /-- All members in order. -/
  | sequence
  /-- One member for each repetition. -/
  | choice
  /-- All members in any order. -/
  | all
deriving DecidableEq, Repr, Inhabited

namespace Compositor

def text : Compositor → String
  | sequence => "sequence"
  | choice => "choice"
  | all => "all"

/-- The compositor of a tag, with or without the namespace of schemas. -/
def ofTag? (tag : String) : Option Compositor :=
  [sequence, choice, all].find? fun c =>
    tag = c.text || tag = "\x7bhttp://www.w3.org/2001/XMLSchema\x7d" ++ c.text

end Compositor

end Conform
