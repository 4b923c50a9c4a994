import Conform.Proofs.Schema.Sample
import Conform.Schema.Traversal
/-!
# What a traversal lists

A traversal goes through a group turn by turn and keeps the groups around. What is still to come of
it has a recursive description, from which every answer is read off. A deep traversal gives the
leaves of the group, up to the first group that is nested too deep.
-/

namespace Conform

namespace Listed

def nothing : Listed := ⟨[], none⟩

/-- What follows a failure is not reached. -/
def append (a b : Listed) : Listed :=
  match a.failure with
  | some _ => a
  | none => ⟨a.members ++ b.members, b.failure⟩

def concat (parts : List Listed) : Listed := parts.foldr append nothing

/-- What is listed by an answer and what comes after it. -/
def behind : Option (Except Failure Member) → Listed → Listed
  | none, l => l
  | some (.ok m), l => ⟨m :: l.members, l.failure⟩
  | some (.error f), _ => ⟨[], some f⟩

/-- The answers to one call after the other. -/
def answers (l : Listed) : List (Except Failure Member) :=
  l.members.map .ok ++ l.failure.toList.map .error

theorem append_nothing (l : Listed) : l.append nothing = l := by
  obtain ⟨members, failure⟩ := l
  cases failure with
  | none => rw [append, nothing, List.append_nil]
  | some f => rfl

theorem append_assoc (a b c : Listed) : (a.append b).append c = a.append (b.append c) := by
  obtain ⟨members, failure⟩ := a
  obtain ⟨members', failure'⟩ := b
  cases failure <;> cases failure' <;> simp [append]

theorem behind_append (answer? : Option (Except Failure Member)) (a b : Listed) :
    (behind answer? a).append b = behind answer? (a.append b) := by
  obtain ⟨members, failure⟩ := a
  rcases answer? with - | f | m
  · rfl
  · rfl
  · cases failure <;> rfl

theorem answers_behind {answer? : Option (Except Failure Member)} {l : Listed}
    (h : ∀ f, answer? = some (.error f) → l = nothing) :
    (behind answer? l).answers = answer?.toList ++ l.answers := by
  rcases answer? with - | f | m
  · rfl
  · rw [h f rfl]
    rfl
  · rfl

end Listed

namespace Schema

/-- What comes of a member of a group with the compositor `outer`, if only `room` more levels of
groups are entered: all groups that may occur if `deep`, else the pointless ones. -/
def opened (s : Schema) (deep : Bool) : Nat → Compositor → Member → Listed
  | room, outer, .group id =>
    let g := s.group id
    if !deep && !g.isPointless outer then ⟨[.group id], none⟩
    else if deep && g.occurs.isEmpty then .nothing
    else match room with
      | 0 =>
        ⟨[], some (.modelDepth (s.limits.maxModelDepth + 1) s.limits.maxModelDepth
          (some (s.groupLabel id)))⟩
      | room + 1 => .concat (g.members.map (s.opened deep room g.compositor))
  | _, _, m => ⟨[m], none⟩

/-- What comes of some members. -/
def openedAll (s : Schema) (deep : Bool) (room : Nat) (outer : Compositor) (members : List Member) :
    Listed :=
  .concat (members.map (s.opened deep room outer))

variable {s : Schema} {deep : Bool} {outer : Compositor} {id : GroupId}

theorem openedAll_cons (room : Nat) (m : Member) (rest : List Member) :
    s.openedAll deep room outer (m :: rest) =
      (s.opened deep room outer m).append (s.openedAll deep room outer rest) := rfl

theorem opened_leaf {m : Member} (room : Nat) (hm : m.isGroup = false) :
    s.opened deep room outer m = ⟨[m], none⟩ := by
  cases m with
  | group id => cases hm
  | element e => cases room <;> rfl
  | wildcard w => cases room <;> rfl

theorem opened_kept (room : Nat) (h : (!deep && !(s.group id).isPointless outer) = true) :
    s.opened deep room outer (.group id) = ⟨[.group id], none⟩ := by
  cases room <;> exact if_pos h

theorem opened_never (room : Nat) (h : (deep && (s.group id).occurs.isEmpty) = true) :
    s.opened deep room outer (.group id) = .nothing := by
  rw [Bool.and_eq_true] at h
  obtain ⟨rfl, h⟩ := h
  cases room <;> simp [opened, h]

theorem opened_zero (hkept : ¬(!deep && !(s.group id).isPointless outer) = true)
    (hoccurs : ¬(deep && (s.group id).occurs.isEmpty) = true) :
    s.opened deep 0 outer (.group id) =
      ⟨[], some (.modelDepth (s.limits.maxModelDepth + 1) s.limits.maxModelDepth
        (some (s.groupLabel id)))⟩ :=
  (if_neg hkept).trans (if_neg hoccurs)

theorem opened_succ (room : Nat) (hkept : ¬(!deep && !(s.group id).isPointless outer) = true)
    (hoccurs : ¬(deep && (s.group id).occurs.isEmpty) = true) :
    s.opened deep (room + 1) outer (.group id) =
      s.openedAll deep room (s.group id).compositor (s.group id).members :=
  (if_neg hkept).trans (if_neg hoccurs)

end Schema

namespace Traversal

/-- What comes of some levels. -/
def toCome (s : Schema) (isDeep : Bool) : List (Compositor × List Member) → Listed
  | [] => .nothing
  | (outer, members) :: below =>
    (s.openedAll isDeep (s.limits.maxModelDepth - below.length) outer members).append
      (toCome s isDeep below)

/-- What is still to come of a traversal. -/
def pending (s : Schema) (t : Traversal) : Listed :=
  if t.hasFailed then .nothing else toCome s t.isDeep t.levels

/-- No more levels are open than the bound on the depth of models admits. -/
def Fits (s : Schema) (t : Traversal) : Prop := t.levels.length ≤ s.limits.maxModelDepth + 1

variable {s : Schema} {t t' : Traversal} {answer? : Option (Except Failure Member)}

theorem toCome_cons (s : Schema) (isDeep : Bool) (outer : Compositor) (m : Member)
    (rest : List Member) (below : List (Compositor × List Member)) :
    toCome s isDeep ((outer, m :: rest) :: below) =
      (s.opened isDeep (s.limits.maxModelDepth - below.length) outer m).append
        (toCome s isDeep ((outer, rest) :: below)) :=
  Listed.append_assoc ..

/-- What a turn does not answer is still to come after it. -/
theorem pending_turn (h : t.turn s = .on answer? t') (hfits : t.Fits s)
    (hgoing : t.hasFailed = false) :
    t'.Fits s ∧ t.pending s = .behind answer? (t'.pending s) ∧
      ∀ f, answer? = some (.error f) → t'.hasFailed = true := by
  obtain ⟨levels, deep, failed⟩ := t
  obtain rfl : failed = false := hgoing
  simp only [Fits, pending, turn] at h hfits ⊢
  split at h
  · cases h
  · cases h
    exact ⟨Nat.le_of_succ_le hfits, rfl, by simp⟩
  · rename_i outer m rest below
    rw [List.length_cons] at hfits
    rw [if_neg Bool.false_ne_true, toCome_cons]
    split at h
    · rename_i id
      split at h
      · rename_i hkept
        cases h
        rw [Schema.opened_kept _ hkept]
        exact ⟨hfits, rfl, by simp⟩
      rename_i hkept
      split at h
      · rename_i hnever
        cases h
        rw [Schema.opened_never _ hnever]
        exact ⟨hfits, rfl, by simp⟩
      rename_i hoccurs
      rw [List.length_cons] at h
      split at h
      · rename_i hdeep
        cases h
        have hlength : below.length = s.limits.maxModelDepth := by omega
        rw [hlength, Nat.sub_self, Schema.opened_zero hkept hoccurs]
        exact ⟨hfits, rfl, fun _ _ => rfl⟩
      · rename_i hdeep
        cases h
        have hroom : s.limits.maxModelDepth - below.length =
            s.limits.maxModelDepth - (below.length + 1) + 1 := by omega
        rw [hroom, Schema.opened_succ _ hkept hoccurs]
        refine ⟨?_, rfl, by simp⟩
        simp only [List.length_cons]
        omega
    · rename_i hleaf
      cases h
      have hm : m.isGroup = false := by
        cases m with
        | group id => exact absurd rfl (hleaf id)
        | element e => rfl
        | wildcard w => rfl
      rw [Schema.opened_leaf _ hm]
      exact ⟨hfits, rfl, by simp⟩

theorem pending_of_over (h : t.turn s = .over) : t.pending s = .nothing := by
  obtain ⟨levels, deep, failed⟩ := t
  cases levels with
  | nil => cases failed <;> rfl
  | cons level below =>
      simp only [turn] at h
      split at h
      · rename_i hlevels
        cases hlevels
      · cases h
      · split at h
        · split at h
          · cases h
          split at h
          · cases h
          split at h <;> cases h
        · cases h

/-- A call answers the first of what is to come, and leaves the rest. -/
theorem pending_next (h : t.next s = (answer?, t')) (hfits : t.Fits s) :
    t'.Fits s ∧ t.pending s = .behind answer? (t'.pending s) ∧
      (∀ f, answer? = some (.error f) → t'.hasFailed = true) ∧
      (answer? = none → t'.pending s = .nothing) := by
  fun_induction next s t with
  | case1 t hfailed =>
      cases h
      exact ⟨hfits, rfl, by simp, fun _ => if_pos hfailed⟩
  | case2 t hgoing hturn =>
      cases h
      exact ⟨hfits, rfl, by simp, fun _ => pending_of_over hturn⟩
  | case3 t hgoing answer t₁ hturn =>
      cases h
      obtain ⟨hfits', hpending, hfailed⟩ := pending_turn hturn hfits (by simpa using hgoing)
      exact ⟨hfits', hpending, hfailed, by simp⟩
  | case4 t hgoing t₁ hturn ih =>
      obtain ⟨hfits', hpending, -⟩ := pending_turn hturn hfits (by simpa using hgoing)
      rw [hpending]
      exact ih h hfits'

theorem pending_of_hasFailed (h : t.hasFailed = true) : t.pending s = .nothing := if_pos h

/-- A traversal that is followed to its end gives what is to come of it. -/
theorem listed_eq (hfits : t.Fits s) : t.listed s = t.pending s := by
  fun_induction listed s t with
  | case1 t t' hnext =>
      obtain ⟨-, hpending, -, hnothing⟩ := pending_next hnext hfits
      rw [hpending, hnothing rfl]
      rfl
  | case2 t failure t' hnext =>
      rw [(pending_next hnext hfits).2.1]
      rfl
  | case3 t m t' hnext rest ih =>
      obtain ⟨hfits', hpending, -⟩ := pending_next hnext hfits
      rw [hpending, ← ih hfits']
      rfl

/-- The traversal after some calls. -/
def after (s : Schema) (t : Traversal) : Nat → Traversal
  | 0 => t
  | n + 1 => (t.next s).2.after s n

/-- The answer to a call, after `n` calls before it. -/
def answer (s : Schema) (t : Traversal) (n : Nat) : Option (Except Failure Member) :=
  ((t.after s n).next s).1

/-- The calls are answered in order, and after that there are no answers. -/
theorem answer_eq (hfits : t.Fits s) (n : Nat) : t.answer s n = (t.pending s).answers[n]? := by
  induction n generalizing t with
  | zero =>
      obtain ⟨-, hpending, hfailed, hnothing⟩ := pending_next rfl hfits
      rw [hpending, Listed.answers_behind fun f hf => pending_of_hasFailed (hfailed f hf)]
      change (t.next s).1 = _
      cases h : (t.next s).1 with
      | none => rw [hnothing h]; rfl
      | some answer => rfl
  | succ n ih =>
      obtain ⟨hfits', hpending, hfailed, hnothing⟩ := pending_next rfl hfits
      change (t.next s).2.answer s n = _
      rw [hpending, Listed.answers_behind fun f hf => pending_of_hasFailed (hfailed f hf), ih hfits']
      cases h : (t.next s).1 with
      | none => rw [hnothing h]; rfl
      | some answer => rfl

/-- The answers are those that are collected where a traversal is followed to its end. -/
theorem answer_eq_listed (hfits : t.Fits s) (n : Nat) :
    t.answer s n = (t.listed s).answers[n]? := by
  rw [answer_eq hfits, listed_eq hfits]

/-- A traversal starts with all that comes of the members of its group. -/
theorem pending_ofGroup (id : GroupId) (isDeep : Bool)
    (h : ¬(isDeep && (s.group id).occurs.isEmpty) = true) :
    (ofGroup s id isDeep).Fits s ∧ (ofGroup s id isDeep).pending s =
      s.openedAll isDeep s.limits.maxModelDepth (s.group id).compositor (s.group id).members := by
  simp only [ofGroup, if_neg h]
  exact ⟨Nat.succ_le_succ (Nat.zero_le _), Listed.append_nothing _⟩

end Traversal

end Conform
