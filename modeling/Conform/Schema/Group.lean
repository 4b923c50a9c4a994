import Conform.Name.Basic
import Conform.Occurs.Basic
import Conform.Schema.Handle
/-!
# Model groups

A model group combines particles to the content of an element or to a part of it.
-/

namespace Conform

/-- A group of particles. -/
structure Group where
  name : Option QName
  compositor : Compositor
  members : List Member
  occurs : Occurs
  parent : Option GroupId
deriving DecidableEq, Repr, Inhabited

namespace Group

/-- A group without members that occurs once. -/
def ofCompositor (c : Compositor) : Group := ⟨none, c, [], Occurs.once, none⟩

/-- The group can stand dissolved in a group with this compositor. -/
def isPointless (g : Group) (outer : Compositor) : Bool :=
  if g.members.isEmpty then true
  else if g.occurs ≠ Occurs.once then false
  else g.members.length = 1 || g.compositor = outer

/-- The name of the group, or else its handle. -/
def label (g : Group) (id : GroupId) : String := (g.name.map QName.text).getD id.text

end Group

end Conform
