import Conform.Schema.Components
/-!
# The order of groups

Groups are put in an order in which the members of a group come before it. A group that contains
itself has no such order.
-/

namespace Conform.Components

/-- The groups that are finished after a visit to `id`, which is met inside the groups of the
trail. A trail longer than the number of groups meets one of them again. -/
def visit (c : Components) : Nat → List GroupId → GroupId → List GroupId →
    Except Failure (List GroupId)
  | 0, trail, id, _ =>
    .error (.circular "group" ((c.group id).label id) (trail.map Handle.text))
  | fuel + 1, trail, id, finished =>
    if id ∈ finished then .ok finished
    else if id ∈ trail then
      .error (.circular "group" ((c.group id).label id) (trail.map Handle.text))
    else do
      let finished ← (c.nested id).foldlM
        (fun finished sub => c.visit fuel (trail ++ [id]) sub finished) finished
      return finished ++ [id]

/-- All groups, each after the groups nested in it. -/
def groupOrder (c : Components) : Except Failure (List GroupId) :=
  (List.range c.groups.size).foldlM
    (fun finished i => c.visit (c.groups.size + 1) [] ⟨i⟩ finished) []

end Conform.Components
