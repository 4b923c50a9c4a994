import Conform.Schema.Basic
/-!
# Traversal of groups

The particles of a group with nested groups dissolved, and the chain of groups that leads to a
particle. Both go down no further than the bound on the depth of models.
-/

namespace Conform

/-- Members in order, up to a failure if there is one. -/
structure Listed where
  members : List Member
  failure : Option Failure
deriving DecidableEq, Repr

/-- What a traversal of the particles under a group is in the middle of. -/
structure Traversal where
  /-- What is still to come of the groups around, the innermost first, each with its compositor. -/
  levels : List (Compositor × List Member)
  /-- Whether all groups that may occur are entered, or only those that mean nothing. -/
  isDeep : Bool
  hasFailed : Bool
deriving DecidableEq, Repr

/-- What a turn of a traversal comes to. -/
inductive Turn
  | over
  | on (answer? : Option (Except Failure Member)) (t : Traversal)
deriving Repr

namespace Schema

/-- A group as it is named by a failure. -/
def groupLabel (s : Schema) (id : GroupId) : String :=
  (s.group id).compositor.text ++ " " ++ id.text

/-- How many turns a member takes at most, with `room` more levels of groups to enter. -/
def turns (s : Schema) : Nat → Member → Nat
  | room + 1, .group id => 2 + (s.group id).members.foldr (fun m n => s.turns room m + n) 0
  | _, _ => 1

end Schema

namespace Traversal

section

variable (s : Schema)

/-- At the first member of a group. Nothing comes of a group that must not occur. -/
def ofGroup (id : GroupId) (isDeep : Bool) : Traversal :=
  let g := s.group id
  ⟨if isDeep && g.occurs.isEmpty then [] else [(g.compositor, g.members)], isDeep, false⟩

/-- A turn passes the next member. It fails at a group that is nested too deep. -/
def turn (t : Traversal) : Turn :=
  match t.levels with
  | [] => .over
  | (_, []) :: below => .on none { t with levels := below }
  | (outer, m :: rest) :: below =>
    let t := { t with levels := (outer, rest) :: below }
    match m with
    | .group id =>
      let g := s.group id
      if !t.isDeep && !g.isPointless outer then .on (some (.ok m)) t
      else if t.isDeep && g.occurs.isEmpty then .on none t
      else if s.limits.maxModelDepth < t.levels.length then
        .on (some (.error (.modelDepth t.levels.length s.limits.maxModelDepth
          (some (s.groupLabel id))))) { t with hasFailed := true }
      else .on none { t with levels := (g.compositor, g.members) :: t.levels }
    | m => .on (some (.ok m)) t

/-- How many turns some levels take at most. -/
def turnsLeft : List (Compositor × List Member) → Nat
  | [] => 0
  | (_, members) :: below =>
    1 + members.foldr (fun m n => s.turns (s.limits.maxModelDepth - below.length) m + n) 0 +
      turnsLeft below

end

section

variable {s : Schema}

theorem turns_pos (room : Nat) (m : Member) : 0 < s.turns room m := by
  unfold Schema.turns
  split <;> omega

theorem turnsLeft_turn {t t' : Traversal} {answer? : Option (Except Failure Member)}
    (h : t.turn s = .on answer? t') : turnsLeft s t'.levels < turnsLeft s t.levels := by
  unfold turn at h
  split at h
  · cases h
  · rename_i hlevels
    cases h
    simp only [hlevels, turnsLeft]
    omega
  · rename_i outer m rest below hlevels
    have hskip : turnsLeft s ((outer, rest) :: below) < turnsLeft s t.levels := by
      have hpos := turns_pos (s := s) (s.limits.maxModelDepth - below.length) m
      simp only [hlevels, turnsLeft, List.foldr_cons]
      omega
    split at h
    · rename_i id
      dsimp only at h
      split at h
      · cases h
        exact hskip
      split at h
      · cases h
        exact hskip
      split at h
      · cases h
        exact hskip
      · rename_i hroom
        cases h
        have hone : s.limits.maxModelDepth - below.length =
            s.limits.maxModelDepth - (below.length + 1) + 1 := by
          rw [List.length_cons] at hroom
          omega
        simp only [hlevels, turnsLeft, List.length_cons, List.foldr_cons, hone, Schema.turns]
        omega
    · cases h
      exact hskip

end

/-- The answer to a call and what is to come after it, which is nothing after a failure. -/
def next (s : Schema) (t : Traversal) : Option (Except Failure Member) × Traversal :=
  if t.hasFailed then (none, t)
  else match _hturn : t.turn s with
    | .over => (none, t)
    | .on (some answer) t' => (some answer, t')
    | .on none t' => t'.next s
termination_by turnsLeft s t.levels
decreasing_by exact turnsLeft_turn _hturn

theorem turnsLeft_next {s : Schema} {t t' : Traversal} {answer : Except Failure Member}
    (h : t.next s = (some answer, t')) : turnsLeft s t'.levels < turnsLeft s t.levels := by
  fun_induction next s t with
  | case1 => cases h
  | case2 => cases h
  | case3 t hfailed answer t' hturn =>
      cases h
      exact turnsLeft_turn hturn
  | case4 t hfailed t' hturn ih => exact Nat.lt_trans (ih h) (turnsLeft_turn hturn)

/-- All answers from here on. -/
def listed (s : Schema) (t : Traversal) : Listed :=
  match _hnext : t.next s with
  | (none, _) => ⟨[], none⟩
  | (some (.error failure), _) => ⟨[], some failure⟩
  | (some (.ok m), t') =>
    let rest := t'.listed s
    ⟨m :: rest.members, rest.failure⟩
termination_by turnsLeft s t.levels
decreasing_by exact turnsLeft_next _hnext

end Traversal

namespace Schema

/-- The elements and wildcards of a group. Groups that must not occur are left out. -/
def iterElements (s : Schema) (id : GroupId) : Listed := (Traversal.ofGroup s id true).listed s

/-- The particles of a group, with the groups that mean nothing dissolved. -/
def iterModel (s : Schema) (id : GroupId) : Listed := (Traversal.ofGroup s id false).listed s

/-- The first answer that a search finds among members, before any failure. -/
def firstAmong (search : Member → Except Failure (Option (List GroupId))) :
    List Member → Except Failure (Option (List GroupId))
  | [] => .ok none
  | m :: rest => do
    match ← search m with
    | some found => return some found
    | none => firstAmong search rest

/-- The groups from `id` down to the one that contains the target, with `room` more levels to
go. -/
def chainFrom (s : Schema) (root : GroupId) (target : Member) :
    Nat → GroupId → Except Failure (Option (List GroupId))
  | room, id =>
    firstAmong (fun m =>
      if m = target then .ok (some [id])
      else match m with
        | .group sub =>
          match room with
          | 0 =>
            .error (.modelDepth (s.limits.maxModelDepth + 1) s.limits.maxModelDepth
              (some (s.groupLabel root)))
          | room + 1 => do return (← s.chainFrom root target room sub).map (id :: ·)
        | _ => .ok none)
      (s.group id).members

/-- The groups from `root` down to the one that contains the target. -/
def chain (s : Schema) (root : GroupId) (target : Member) : Except Failure (List GroupId) := do
  match ← s.chainFrom root target s.limits.maxModelDepth root with
  | some groups => return groups
  | none => throw (.misuse (.notParticle target root))

/-- How often a particle occurs at least in the content of `root`. -/
def overallMin (s : Schema) (root : GroupId) (target : Member) : Except Failure UInt32 := do
  let groups ← s.chain root target
  if groups.any fun id =>
      (s.group id).compositor = .choice && 1 < (s.group id).members.length then return 0
  return groups.foldl (fun n id => satMul n (s.group id).occurs.min) (s.occurs target).min

/-- How often a particle occurs at most in the content of `root`. -/
def overallMax (s : Schema) (root : GroupId) (target : Member) :
    Except Failure (Option UInt32) := do
  let groups ← s.chain root target
  return groups.foldl
    (fun n id => match n, (s.group id).occurs.max with
      | some n, some m => some (satMul n m)
      | some n, none => if n = 0 then some 0 else none
      | none, _ => none)
    (s.occurs target).max

end Schema

end Conform
