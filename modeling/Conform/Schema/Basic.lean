import Conform.Schema.Facts
/-!
# Schemas

A schema is made of components that fit together, with the facts about its groups worked out, the
bounds of its particles folded and the paths of its identity constraints compiled.
-/

namespace Conform

/-- A schema that documents can be checked against. -/
structure Schema extends Components where
  groupFacts : Array GroupFacts
  folded : Listing Member Occurs
  rules : Array Rule
deriving Inhabited

namespace Schema

/-- What is known about a group. -/
def factsOf (s : Schema) (id : GroupId) : GroupFacts := s.groupFacts[id.index]?.getD default

/-- An identity constraint with its paths. -/
def rule (s : Schema) (id : IdentityId) : Rule := s.rules[id.index]?.getD default

/-- Whether no content at all matches a member. -/
def isEmptiable (s : Schema) : Member → Bool
  | .group id => (s.factsOf id).isEmptiable
  | m => (s.occurs m).isEmptiable

/-- The elements and wildcards in a group. -/
def leaves (s : Schema) (id : GroupId) : List Member := (s.factsOf id).leaves

/-- The bounds of a member folded with those of the groups around it. -/
def effectiveOccurs (s : Schema) (m : Member) : Occurs := (s.folded.get? m).getD (s.occurs m)

/-- The members of an `all` group that are matched in any order: the direct ones, in version 1.1
the leaves. -/
def unordered (s : Schema) (version : Version) (id : GroupId) : List Member :=
  match version with
  | .v10 => (s.group id).members
  | .v11 => s.leaves id

end Schema

end Conform
