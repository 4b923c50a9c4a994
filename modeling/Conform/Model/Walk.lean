import Conform.Model.Tally
import Conform.Schema.Traversal
/-!
# Walking a content model

A walk goes through the particles of a model group in the order in which children may come. It
stands on a leaf until the children say that they match it no more, counts the occurrences of every
particle and never goes back. Where it leaves a particle with a count that the bounds do not admit,
it reports a violation.

The repetitions of a group cannot always be told from the children. A tally keeps the least number
of them, a second one the greatest, where it is greater.
-/

namespace Conform

/-- A count that the bounds of a particle do not admit, and the leaves that could come instead. -/
structure Violation where
  particle : Member
  count : Nat
  expected : List Member
deriving DecidableEq, Repr

/-- A group in which a walk stands, the members that are still to come, and whether a member has
matched in this repetition. -/
structure Frame where
  group : GroupId
  rest : List Member
  matched : Bool
deriving DecidableEq, Repr, Inhabited

/-- A walk through the model of `root`. -/
structure Walk where
  root : GroupId
  version : Version
  /-- The innermost group. -/
  here : Frame
  /-- The groups around it, the next one first. -/
  outer : List Frame
  counts : Tally
  ceilings : Tally
  /-- The leaf on which the walk stands, unless it is over. -/
  current : Option Member
deriving DecidableEq, Repr, Inhabited

namespace Walk

/-- The innermost group as a member. -/
def hereMember (w : Walk) : Member := .group w.here.group

/-- The walk is over. -/
def isEnded (w : Walk) : Bool := w.current.isNone

def count (w : Walk) (m : Member) : Nat := w.counts.count m

/-- The greatest number of occurrences that the children may stand for. -/
def reach (w : Walk) (m : Member) : Nat := max (w.counts.count m) (w.ceilings.count m)

/-- The ceiling of a member, or its count if it has none. -/
def ceilingOrCount (w : Walk) (m : Member) : Nat :=
  if w.ceilings.count m = 0 then w.counts.count m else w.ceilings.count m

/-- The members through which a walk goes in a group. -/
def items (s : Schema) (version : Version) (id : GroupId) : List Member :=
  let g := s.group id
  if g.occurs.isEmpty then []
  else if g.compositor = .all then s.unordered version id
  else g.members

/-- The innermost group from its first member on. -/
def rewind (s : Schema) (w : Walk) : Walk :=
  { w with here := { w.here with rest := items s w.version w.here.group } }

/-- The innermost group from its first member on, with nothing matched in it. -/
def restartGroup (s : Schema) (w : Walk) : Walk :=
  { w with here := ⟨w.here.group, items s w.version w.here.group, false⟩ }

/-- Whether a member of a group is passed over: in an `all` group, groups and members that have
reached their maximum. -/
def isPassed (s : Schema) (w : Walk) (m : Member) : Bool :=
  (s.group w.here.group).compositor = .all && (m.isGroup || (s.occurs m).isOver (w.count m))

/-- The next member of the innermost group, and the walk behind it. -/
def nextItem (s : Schema) (w : Walk) : Option Member × Walk :=
  match w.here.rest.dropWhile (w.isPassed s) with
  | [] => (none, { w with here := { w.here with rest := [] } })
  | m :: rest => (some m, { w with here := { w.here with rest } })

/-- Enters a group. The bound on the depth of models ends the walk. -/
def enter (s : Schema) (w : Walk) (id : GroupId) : Except Failure Walk :=
  if s.limits.isModelDepthExceeded (w.outer.length + 1) then
    .error (.modelDepth (w.outer.length + 1) s.limits.maxModelDepth (some (s.groupLabel w.root)))
  else .ok { w with here := ⟨id, items s w.version id, false⟩, outer := w.here :: w.outer }

/-- Leaves the innermost group for the one around it, if there is one. -/
def leave? (w : Walk) : Option Walk :=
  match w.outer with
  | [] => none
  | f :: outer => some { w with here := f, outer }

/-- The leaves that are expected in the innermost group: all of a choice, else those of the members
that have not reached their minimum. -/
def expected (s : Schema) (w : Walk) : List Member :=
  let g := s.group w.here.group
  (g.members.filter fun m =>
    g.compositor = .choice || w.count m < (s.occurs m).min.toNat).flatMap fun
    | .group id => if (s.group id).occurs.isEmpty then [] else s.leaves id
    | m => [m]

/-- A violation of a group that the walk leaves. -/
def violation (s : Schema) (w : Walk) (m : Member) (count : Nat) : Violation :=
  ⟨m, count, w.expected s⟩

/-- The bounds of the innermost group admit no further repetition. -/
def isGroupOver (s : Schema) (w : Walk) : Bool :=
  (s.group w.here.group).occurs.isOver (w.reach w.hereMember)

/-- All members of an `all` group have reached their minimum. -/
def isSatisfied (s : Schema) (w : Walk) : Bool :=
  (s.unordered w.version w.here.group).all fun m => (s.occurs m).min.toNat ≤ w.count m

/-- Counts repetitions of the innermost group. -/
def addRepetitions (w : Walk) (least greatest : Nat) : Walk :=
  { w with
    counts := w.counts.add w.hereMember least
    ceilings := w.ceilings.add w.hereMember greatest }

/-- The quotient, rounded up. -/
def ceilDiv (n d : Nat) : Nat := (n + d - 1) / d

/-- The repetitions of a choice for which the occurrences of a member stand. -/
def countChoice (s : Schema) (w : Walk) (m : Member) : Walk :=
  let o := s.occurs m
  let least := match o.max with
    | none => 1
    | some n => if n = 0 then 1 else ceilDiv (w.count m) n.toNat
  w.addRepetitions least (max 1 (w.ceilingOrCount m / max 1 o.min.toNat))

/-- The repetitions of a sequence for which the occurrences of its first member that has any stand.
They stand for one if a later member must occur. -/
def countSequence (s : Schema) (w : Walk) : Walk :=
  match (s.group w.here.group).members.dropWhile (fun m => w.count m = 0) with
  | [] => w
  | m :: later =>
    if w.ceilingOrCount m = 1 || later.any (fun m => !s.isEmptiable m) then
      { w with counts := w.counts.add w.hereMember 1 }
    else
      let o := s.occurs m
      let most := match o.max with
        | some n => if n = 0 then w.count m else n.toNat
        | none => w.count m
      w.addRepetitions (max 1 (w.count m / most))
        (max 1 (w.ceilingOrCount m / max 1 o.min.toNat))

/-- The end of a member in a sequence in which something has matched. The last member closes the
repetition. -/
def closeInSequence (s : Schema) (w : Walk) (m : Member) : Bool × Walk :=
  let w := if (s.group w.here.group).members.getLast? = some m then w.countSequence s else w
  ((s.occurs m).isMissing (w.reach m), w)

/-- The end of a member in a choice. -/
def closeInChoice (s : Schema) (w : Walk) (m : Member) : Bool × Walk :=
  if w.count m = 0 then (false, w)
  else
    let greatest := w.ceilingOrCount m
    let w := w.countChoice s m
    let w := { w with counts := w.counts.set m 0 }
    ((s.occurs m).isMissing greatest, w.restartGroup s)

/-- The end of a member in the innermost group, inside the groups of `outer`: whether the member or
the group has not reached its minimum, and the walk behind it. A sequence in which nothing has
matched ends with its first member that must occur. Without a group around it, the walk is over. -/
def closeItem (s : Schema) : List Frame → Member → Walk → Option Bool × Walk
  | outer, m, w =>
    let w := { w with outer }
    let g := s.group w.here.group
    match g.compositor with
    | .choice =>
      let (missing, w) := w.closeInChoice s m
      (some missing, w)
    | .all => (some false, w)
    | .sequence =>
      if w.here.matched || 0 < w.count m then
        let (missing, w) := closeInSequence s { w with here := { w.here with matched := true } } m
        (some missing, w)
      else if s.isEmptiable m then (some false, w)
      else match outer with
        | f :: outer => closeItem s outer w.hereMember { w with here := f }
        | [] =>
          if g.occurs.min.toNat ≤ w.reach w.hereMember then (none, w) else (some true, w)

/-- The end of a leaf. -/
def closeLeaf (s : Schema) (w : Walk) (m : Member) : Option Bool × Walk := closeItem s w.outer m w

/-- The end of the innermost group. -/
def closeGroup (s : Schema) (w : Walk) : Option Bool × Walk :=
  match w.outer with
  | [] => (none, w)
  | f :: outer => closeItem s outer w.hereMember { w with here := f }

end Walk

end Conform
