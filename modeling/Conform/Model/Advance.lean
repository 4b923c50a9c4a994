import Conform.Model.Walk
/-!
# Advancing a walk

A walk is told whether the child at hand matches the leaf on which it stands, and moves on to the
next leaf when it must. On its way it enters and leaves groups, one step at a time; a budget that is
worked out from the schema bounds the number of steps.
-/

namespace Conform

/-- A walk on its way to the next leaf: the last member that was looked for, `none` if there was no
more, and the violations so far. -/
structure Passage where
  walk : Walk
  last : Option Member
  violations : List Violation
deriving DecidableEq, Repr

/-- What a step of a passage leads to. -/
inductive Move where
  /-- The passage goes on. -/
  | again (p : Passage)
  /-- The walk stands on a leaf. -/
  | placed (p : Passage)
  /-- There is no group left. -/
  | ended (p : Passage)
  | failed (failure : Failure) (p : Passage)

namespace Passage

def report (p : Passage) (v : Violation) : Passage := { p with violations := p.violations ++ [v] }

/-- The passage after the innermost group was left, if there is a group around it. -/
def afterClose (p : Passage) : Option Bool × Walk → Move
  | (none, w) => .ended { p with walk := w }
  | (some _, w) => .again { p with walk := w }

/-- Enters a group and forgets how often it occurred before. -/
def enterGroup (s : Schema) (p : Passage) (id : GroupId) : Move :=
  match p.walk.enter s id with
  | .error failure => .failed failure p
  | .ok w => .again { p with walk := { w with
      counts := w.counts.set (.group id) 0
      ceilings := w.ceilings.set (.group id) 0 } }

/-- Stands on a leaf. In a sequence its earlier occurrences belong to another repetition. -/
def place (s : Schema) (p : Passage) (m : Member) : Move :=
  let w := { p.walk with current := some m }
  if (s.group w.here.group).compositor = .sequence then
    .placed { p with walk := { w with counts := w.counts.set m 0 } }
  else .placed { p with walk := w }

/-- Leaves a group in which nothing has matched. -/
def leaveUnmatched (s : Schema) (p : Passage) : Move :=
  let w := p.walk
  let m := w.hereMember
  let w := if (s.group w.here.group).compositor = .all && w.isSatisfied s then
    { w with counts := w.counts.set m 1 } else w
  let expected := w.expected s
  match w.closeGroup s with
  | (none, w) => .ended { p with walk := w }
  | (some missing, w) =>
    let p := { p with walk := w }
    if missing && !expected.isEmpty then .again (p.report ⟨m, w.count m, expected⟩) else .again p

/-- Goes on from the end of an `all` group in which something has matched. -/
def leaveAll (s : Schema) (p : Passage) : Move :=
  let w := p.walk
  let m := w.hereMember
  let g := s.group w.here.group
  if !w.isSatisfied s then
    let p := if g.occurs.min = 0 then p.report (w.violation s m (w.count m)) else p
    match w.leave? with
    | none => .ended p
    | some w => .again { p with walk := w }
  else if g.members.any fun m => !(s.occurs m).isOver (w.count m) then
    .again { p with walk := w.restartGroup s }
  else
    let w := { w with counts := w.counts.set m 1 }
    let p := { p with walk := w }
    if g.occurs.isOver 1 then .again p else p.afterClose (w.closeGroup s)

/-- Goes on from the end of a group. -/
def leaveEnd (s : Schema) (p : Passage) : Move :=
  if !p.walk.here.matched then p.leaveUnmatched s
  else if (s.group p.walk.here.group).compositor = .all then p.leaveAll s
  else .again { p with walk := p.walk.restartGroup s }

/-- One step: a group that is full is left, else the next member is looked for. -/
def step (s : Schema) (p : Passage) : Move :=
  if p.walk.isGroupOver s then p.afterClose (p.walk.closeGroup s)
  else
    let (item, w) := p.walk.nextItem s
    let p := { p with walk := w, last := item }
    match item with
    | some (.group id) => p.enterGroup s id
    | some m => p.place s m
    | none => p.leaveEnd s

/-- Steps until the walk stands on a leaf or is over. -/
def run (s : Schema) : Nat → Passage → Move
  | 0, p => .failed .endlessModel p
  | fuel + 1, p =>
    match p.step s with
    | .again p => p.run s fuel
    | m => m

end Passage

/-- More steps than any walk takes between two leaves, and more leaves than it passes without a
child. A group that counts repetitions by itself can do so up to its maximum. -/
def Schema.stepBudget (s : Schema) : Nat :=
  s.groups.foldl (fun n g => n * (2 + (g.occurs.max.getD 0).toNat))
    (4 * Nat.pow (s.particles.length + 2) 2)

namespace Walk

/-- Whether the group in which a walk ends is reported as not complete. -/
def isIncomplete (s : Schema) (w : Walk) (last : Option Member) : Bool :=
  let g := s.group w.here.group
  match g.compositor with
  | .choice => true
  | .sequence => last.isSome
  | .all => g.members.any fun m => w.count m < (s.occurs m).min.toNat

/-- The end of the walk: the violations and the walk without a leaf. -/
def finish (s : Schema) (p : Passage) : List Violation × Walk :=
  let w := { p.walk with current := none }
  let o := (s.group w.here.group).occurs
  let m := w.hereMember
  let count := w.count m
  if o.isMissing (w.reach m) then
    (if w.isIncomplete s p.last then p.violations ++ [w.violation s m count] else p.violations, w)
  else if o.isExceeded count then (p.violations ++ [w.violation s m count], w)
  else (p.violations, w)

/-- Moves on from a leaf. A failure leaves the walk where it was met. -/
def moveOn (s : Schema) (w : Walk) (m : Member) : Except Failure (List Violation) × Walk :=
  let finished (p : Passage) : Except Failure (List Violation) × Walk :=
    let (violations, w) := finish s p
    (.ok violations, w)
  match w.closeLeaf s m with
  | (none, w) => finished ⟨w, none, []⟩
  | (some missing, w') =>
    match Passage.run s s.stepBudget ⟨w', none, if missing then [⟨m, w.count m, [m]⟩] else []⟩ with
    | .placed p => (.ok p.violations, p.walk)
    | .ended p => finished p
    | .again p => (.error .endlessModel, p.walk)
    | .failed failure p => (.error failure, p.walk)

/-- Counts a child for a leaf. -/
def take (w : Walk) (m : Member) : Walk :=
  { w with counts := w.counts.add m 1, here := { w.here with matched := true } }

/-- Whether a walk stays on a leaf that has matched: more occurrences are admitted, or they were
admitted by a choice. -/
def staysOn (s : Schema) (w : Walk) (m : Member) : Bool :=
  let g := s.group w.here.group
  let o := s.occurs m
  g.compositor ≠ .all &&
    (!o.isOver (w.count m) || (g.compositor = .choice && o.isAmbiguous))

/-- Advances the walk: the child at hand matches its leaf, or it does not. -/
def advance (s : Schema) (w : Walk) (matched : Bool) : Except Failure (List Violation) × Walk :=
  match w.current with
  | none => (.error (.misuse .modelEnded), w)
  | some m =>
    if matched then
      let w := w.take m
      if w.staysOn s m then (.ok [], w)
      else if (s.group w.here.group).compositor = .all then (w.rewind s).moveOn s m
      else w.moveOn s m
    else w.moveOn s m

/-- Advances past all leaves that are left, with the violations so far. -/
def stopFrom (s : Schema) : Nat → List Violation → Walk → Except Failure (List Violation) × Walk
  | 0, violations, w => if w.isEnded then (.ok violations, w) else (.error .endlessModel, w)
  | fuel + 1, violations, w =>
    if w.isEnded then (.ok violations, w)
    else match w.advance s false with
      | (.ok more, w) => w.stopFrom s fuel (violations ++ more)
      | (.error failure, w) => (.error failure, w)

/-- Ends the walk: the violations of what is left. -/
def stop (s : Schema) (w : Walk) : Except Failure (List Violation) × Walk :=
  w.stopFrom s s.stepBudget []

/-- The walk that is over before it began. -/
def clear (s : Schema) (w : Walk) : Walk where
  root := w.root
  version := w.version
  here := ⟨w.root, items s w.version w.root, false⟩
  outer := []
  counts := Tally.zero
  ceilings := Tally.zero
  current := none

/-- Goes to the first leaf. Groups without members are not entered. -/
def seekFirst (s : Schema) : Nat → Walk → Except Failure Unit × Walk
  | 0, w => (.error .endlessModel, w)
  | fuel + 1, w =>
    match w.nextItem s with
    | (none, w) =>
      match w.leave? with
      | none => (.ok (), w)
      | some w => w.seekFirst s fuel
    | (some (.group id), w) =>
      if (s.group id).members.isEmpty then w.seekFirst s fuel
      else match w.enter s id with
        | .error failure => (.error failure, w)
        | .ok w => w.seekFirst s fuel
    | (some m, w) => (.ok (), { w with current := some m })

/-- Starts the walk anew. -/
def restart (s : Schema) (w : Walk) : Except Failure Unit × Walk :=
  (w.clear s).seekFirst s s.stepBudget

/-- A walk on the first leaf of a group. -/
def start (s : Schema) (root : GroupId) (version : Version) : Except Failure Walk :=
  let nowhere : Walk := ⟨root, version, ⟨root, [], false⟩, [], Tally.zero, Tally.zero, none⟩
  match nowhere.restart s with
  | (.ok (), w) => .ok w
  | (.error failure, _) => .error failure

/-- The first leaf of the root group that an element name matches, wherever the walk stands. -/
def leafFor? (s : Schema) (w : Walk) (n : QName) : Option Member :=
  (s.leaves w.root).find? fun m => s.passes m n

end Walk

end Conform
