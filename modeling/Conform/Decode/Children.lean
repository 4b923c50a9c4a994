import Conform.Decode.Pass
import Conform.Decode.Tree
import Conform.Model.Attribution
/-!
# Children of an element

The paths of children, the declarations under which they are decoded, and the diagnostics for the
issues of a content model.
-/

namespace Conform

namespace Element

/-- The paths of children. A child whose name others of `all` have too gets its position among
them; `before` are the names of the children that have their paths. -/
def childPathsFrom (path : String) (all : List QName) :
    List QName → List Element → List String
  | _, [] => []
  | before, c :: rest =>
    let position := before.count c.name + 1
    (path ++ "/" ++ c.tag ++
      (if 1 < all.count c.name then "[" ++ toString position ++ "]" else "")) ::
      childPathsFrom path all (c.name :: before) rest

/-- The paths of the children of an element at `path`. -/
def childPaths (e : Element) (path : String) : List String :=
  childPathsFrom path (e.children.map (·.name)) [] e.children

end Element

/-- How a child is decoded. -/
inductive Treatment where
  /-- By a declaration. -/
  | declared (id : ElementId)
  /-- Not at all; `isMissed` if there should be a declaration. -/
  | raw (isMissed : Bool)
deriving DecidableEq, Repr

namespace Schema

/-- How a child of this name is decoded that is attributed to a leaf. A wildcard asks for a global
declaration unless it skips its elements. -/
def treatment (s : Schema) (leaf : Member) (name : QName) : Option Treatment :=
  match leaf with
  | .element id => some (.declared id)
  | .wildcard id =>
    match (s.wildcard id).process, s.elementNamed? name with
    | .skip, _ => some (.raw false)
    | .lax, none => some (.raw false)
    | .strict, none => some (.raw true)
    | _, some id => some (.declared id)
  | .group _ => none

/-- A choice without members that must occur. -/
def isUnfulfillable (s : Schema) (id : GroupId) : Bool :=
  let g := s.group id
  g.members.isEmpty && g.compositor = .choice && 0 < g.occurs.min

/-- A group that is nothing but a wildcard. -/
def isLoneWildcard (s : Schema) (id : GroupId) : Bool :=
  match (s.group id).members with
  | [.wildcard _] => true
  | _ => false

/-- An issue of the content of an element, in the words of its scope. -/
def childrenFault (s : Schema) (e : Element) (i : Issue) : ChildrenFault where
  parent := e.tag
  index := i.index
  child := e.children[i.index]?.map Element.tag
  particle := some (s.particleLabel i.particle e.scope)
  count := i.count
  expected := i.expected.map fun members =>
    members.filterMap fun m => s.expectedTag m e.scope

end Schema

end Conform
