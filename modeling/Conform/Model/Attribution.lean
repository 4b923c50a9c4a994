import Conform.Model.Advance
/-!
# Attribution of children

The children of an element are attributed to the leaves of its content model, in order. A child that
the model does not admit is an issue and breaks the model: what comes after it is attributed by its
name alone, and is an issue only if no leaf has that name.
-/

namespace Conform

/-- A child at which a content model is not met, or the end of the children. -/
structure Issue where
  index : Nat
  particle : Member
  count : Nat
  expected : Option (List Member)
deriving DecidableEq, Repr

/-- The issue of a violation that is found at a child. -/
def Issue.ofViolation (index : Nat) (v : Violation) : Issue :=
  ⟨index, v.particle, v.count, some v.expected⟩

/-- A content model after some children. -/
structure Matching where
  walk : Walk
  isBroken : Bool
  issues : List Issue
deriving DecidableEq, Repr

/-- What becomes of children: the leaf of each, up to a failure, and the issues. -/
structure Attribution where
  leaves : List (Option Member)
  issues : Except Failure (List Issue)

namespace Matching

/-- A content model before its first child. -/
def start (s : Schema) (root : GroupId) : Except Failure Matching := do
  return ⟨← Walk.start s root s.version, false, []⟩

/-- The matching with more issues. -/
def report (m : Matching) (issues : List Issue) : Matching :=
  { m with issues := m.issues ++ issues }

/-- The matching with one more issue, which breaks the model. -/
def breakAt (m : Matching) (issue : Issue) : Matching :=
  { m.report [issue] with isBroken := true }

/-- A child of a model that is over is attributed by its name. The first one breaks the model. -/
def attributeByName (s : Schema) (m : Matching) (index : Nat) (name : QName) :
    Option Member × Matching :=
  match m.walk.leafFor? s name with
  | none => (none, m.breakAt ⟨index, .group m.walk.root, 0, none⟩)
  | some leaf =>
    if m.isBroken then (some leaf, m) else (some leaf, m.breakAt ⟨index, leaf, 0, some []⟩)

/-- Attributes a child to the first leaf that it matches. A violation on the way to that leaf ends
the walk. -/
def attributeFrom (s : Schema) (index : Nat) (name : QName) :
    Nat → Matching → Except Failure (Option Member × Matching)
  | 0, _ => .error .endlessModel
  | fuel + 1, m =>
    match m.walk.current with
    | none => .ok (m.attributeByName s index name)
    | some leaf =>
      if s.passes leaf name then
        match m.walk.advance s true with
        | (.ok violations, walk) =>
          .ok (some leaf, { m with walk }.report (violations.map (Issue.ofViolation index)))
        | (.error failure, _) => .error failure
      else
        match m.walk.advance s false with
        | (.ok [], walk) => attributeFrom s index name fuel { m with walk }
        | (.ok (v :: _), walk) =>
          .ok (walk.leafFor? s name,
            { m with walk := walk.clear s }.breakAt (Issue.ofViolation index v))
        | (.error failure, _) => .error failure

/-- Attributes a child. A walk passes each leaf at most as often as it takes steps. -/
def child (s : Schema) (m : Matching) (index : Nat) (name : QName) :
    Except Failure (Option Member × Matching) :=
  attributeFrom s index name (s.stepBudget + 1) m

/-- All issues, once no child is left. -/
def finish (s : Schema) (m : Matching) (index : Nat) : Except Failure (List Issue) := do
  let violations ← (m.walk.stop s).1
  return m.issues ++ violations.map (Issue.ofViolation index)

/-- Attributes children, the first of them at `index`. -/
def children (s : Schema) : Nat → Matching → List QName → Attribution
  | index, m, [] => ⟨[], m.finish s index⟩
  | index, m, name :: rest =>
    match m.child s index name with
    | .error failure => ⟨[], .error failure⟩
    | .ok (leaf, m) =>
      let a := children s (index + 1) m rest
      { a with leaves := leaf :: a.leaves }

end Matching

namespace Schema

/-- Attributes children with these names to the leaves of a group. -/
def attribution (s : Schema) (root : GroupId) (names : List QName) :
    Except Failure Attribution := do
  return (← Matching.start s root).children s 0 names

/-- Attributes children by their names alone, without issues. -/
def looseAttribution (s : Schema) (root : GroupId) (names : List QName) :
    Except Failure Attribution := do
  let walk ← Walk.start s root s.version
  return ⟨names.map (walk.leafFor? s), .ok []⟩

/-- The issues of children with these names in the content of a group. -/
def issues (s : Schema) (root : GroupId) (names : List QName) : Except Failure (List Issue) := do
  (← s.attribution root names).issues

end Schema

end Conform
