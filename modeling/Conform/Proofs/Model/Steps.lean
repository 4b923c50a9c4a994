import Conform.Model.Advance
import Conform.Proofs.Schema.Built
import Mathlib.Algebra.Order.Group.Nat
import Mathlib.Data.List.Perm.Subperm
import Mathlib.Tactic.Ring
/-!
# Steps of a walk

How far the budget reaches, what a run of steps comes to, and what is looked for next.
-/

namespace Conform

/-- A maximum that is not zero is positive. -/
theorem Occurs.max_pos {o : Occurs} (h : o.max ≠ some 0) {n : UInt32} (hn : n ∈ o.max) :
    0 < n.toNat := by
  refine Nat.pos_of_ne_zero fun hzero => ?_
  obtain rfl : n = 0 := UInt32.toNat_inj.1 hzero
  exact h hn

theorem Occurs.isOver_eq_false_iff {o : Occurs} {k : Nat} :
    o.isOver k = false ↔ ∀ n ∈ o.max, k < n.toNat := by
  unfold isOver
  cases o.max with
  | none => simp
  | some n => simp

theorem Occurs.isOver_iff {o : Occurs} {k : Nat} :
    o.isOver k = true ↔ ∃ n ∈ o.max, n.toNat ≤ k := by
  unfold isOver
  cases o.max with
  | none => simp
  | some n => simp

/-! ## The budget -/

namespace Schema

theorem mul_pow_le_foldl {α : Type} (f : α → Nat) (hf : ∀ x, 2 ≤ f x) (xs : List α) :
    ∀ n : Nat, n * 2 ^ xs.length ≤ xs.foldl (fun n x => n * f x) n := by
  induction xs with
  | nil => intro n; simp
  | cons x xs ih =>
      intro n
      rw [List.foldl_cons, List.length_cons, Nat.pow_succ']
      calc n * (2 * 2 ^ xs.length) = n * 2 * 2 ^ xs.length := (Nat.mul_assoc ..).symm
        _ ≤ n * f x * 2 ^ xs.length :=
          Nat.mul_le_mul_right _ (Nat.mul_le_mul_left n (hf x))
        _ ≤ _ := ih _

/-- Every group doubles the budget at least. -/
theorem sq_mul_pow_le_stepBudget (s : Schema) :
    4 * (s.particles.length + 2) ^ 2 * 2 ^ s.groups.size ≤ s.stepBudget := by
  unfold stepBudget
  rw [← Array.foldl_toList, ← Array.length_toList]
  exact mul_pow_le_foldl (fun g : Group => 2 + (g.occurs.max.getD 0).toNat) (fun g => by omega) _ _

theorem sq_le_stepBudget (s : Schema) : 4 * (s.particles.length + 2) ^ 2 ≤ s.stepBudget :=
  (Nat.le_mul_of_pos_right _ (Nat.two_pow_pos _)).trans s.sq_mul_pow_le_stepBudget

theorem sixteen_le_stepBudget (s : Schema) : 16 ≤ s.stepBudget := by
  refine Nat.le_trans ?_ s.sq_le_stepBudget
  have hsq : 2 ^ 2 ≤ (s.particles.length + 2) ^ 2 := Nat.pow_le_pow_left (by omega) 2
  omega

/-- A product of two counts of particles, with some room, is in the budget. -/
theorem mul_le_stepBudget (s : Schema) {i j : Nat} (hi : i ≤ s.particles.length + 2)
    (hj : j ≤ 4 * (s.particles.length + 2)) : i * j ≤ s.stepBudget :=
  calc i * j ≤ (s.particles.length + 2) * (4 * (s.particles.length + 2)) := Nat.mul_le_mul hi hj
    _ = 4 * (s.particles.length + 2) ^ 2 := by ring
    _ ≤ s.stepBudget := s.sq_le_stepBudget

end Schema

theorem Schema.isEmptiable_leaf {s : Schema} {m : Member} (hm : m.isGroup = false) :
    s.isEmptiable m = true ↔ (s.occurs m).min.toNat = 0 := by
  have hmin : (s.occurs m).min = 0 ↔ (s.occurs m).min.toNat = 0 := by
    rw [← UInt32.toNat_inj]
    rfl
  rw [← hmin]
  cases m with
  | group g => cases hm
  | element e => simp [Schema.isEmptiable, Occurs.isEmptiable]
  | wildcard x => simp [Schema.isEmptiable, Occurs.isEmptiable]

theorem Components.mem_particles {c : Components} {m : Member} (h : c.hasMember m = true) :
    m ∈ c.particles := by
  cases m with
  | element e => simpa [particles, hasMember] using ⟨e.index, by simpa [hasMember] using h, rfl⟩
  | wildcard w => simpa [particles, hasMember] using ⟨w.index, by simpa [hasMember] using h, rfl⟩
  | group g => simpa [particles, hasMember] using ⟨g.index, by simpa [hasMember] using h, rfl⟩

theorem Components.Forest.length_members_le {c : Components} (h : c.Forest) (g : GroupId) :
    (c.group g).members.length ≤ c.particles.length :=
  ((h.nodup g).subperm fun _ hm => mem_particles (h.isThere hm)).length_le

/-! ## Runs -/

namespace Passage

variable {s : Schema} {p p' : Passage} {n : Nat}

theorem run_again (h : p.step s = .again p') : run s (n + 1) p = run s n p' := by
  rw [run, h]

theorem run_placed (h : p.step s = .placed p') : run s (n + 1) p = .placed p' := by
  rw [run, h]

theorem run_ended (h : p.step s = .ended p') : run s (n + 1) p = .ended p' := by
  rw [run, h]

variable {w w' : Walk} {last : Option Member} {violations : List Violation}

theorem step_of_over (h : w.isGroupOver s = true) : step s ⟨w, last, violations⟩ =
    afterClose ⟨w, last, violations⟩ (w.closeGroup s) :=
  if_pos h

theorem step_of_leaf {m : Member} (h : w.isGroupOver s = false)
    (hnext : w.nextItem s = (some m, w')) (hm : m.isGroup = false) :
    step s ⟨w, last, violations⟩ = place s ⟨w', some m, violations⟩ m := by
  simp only [step, h, hnext]
  cases m with
  | group g => cases hm
  | element e => rfl
  | wildcard x => rfl

theorem step_of_group {g : GroupId} (h : w.isGroupOver s = false)
    (hnext : w.nextItem s = (some (.group g), w')) :
    step s ⟨w, last, violations⟩ = enterGroup s ⟨w', some (.group g), violations⟩ g := by
  simp only [step, h, hnext]
  rfl

theorem step_of_none (h : w.isGroupOver s = false) (hnext : w.nextItem s = (none, w')) :
    step s ⟨w, last, violations⟩ = leaveEnd s ⟨w', none, violations⟩ := by
  simp only [step, h, hnext]
  rfl

end Passage

namespace Walk

/-- What a walk has come to when it moves on no more. -/
def settle (s : Schema) : Move → Except Failure (List Violation) × Walk
  | .placed p => (.ok p.violations, p.walk)
  | .ended p => (.ok (finish s p).1, (finish s p).2)
  | .again p => (.error .endlessModel, p.walk)
  | .failed failure p => (.error failure, p.walk)

theorem moveOn_of_some {s : Schema} {w w' : Walk} {m : Member} {missing : Bool}
    (h : w.closeLeaf s m = (some missing, w')) : w.moveOn s m =
      settle s (Passage.run s s.stepBudget
        ⟨w', none, if missing then [⟨m, w.count m, [m]⟩] else []⟩) := by
  rw [moveOn, h]
  dsimp only
  cases Passage.run s s.stepBudget ⟨w', none, if missing then [⟨m, w.count m, [m]⟩] else []⟩ <;> rfl

theorem moveOn_of_none {s : Schema} {w w' : Walk} {m : Member}
    (h : w.closeLeaf s m = (none, w')) : w.moveOn s m = settle s (.ended ⟨w', none, []⟩) := by
  rw [moveOn, h]
  rfl

end Walk

/-! ## The end of a walk -/

namespace Walk

variable {s : Schema} {w : Walk}

/-- Nothing is reported if the repetitions are not too many, and either enough of them are there or
the group is complete. -/
theorem finish_of_complete (last : Option Member) (violations : List Violation)
    (hmin : (s.group w.here.group).occurs.min.toNat ≤ w.reach w.hereMember ∨
      w.isIncomplete s last = false)
    (hmax : ∀ n ∈ (s.group w.here.group).occurs.max, w.count w.hereMember ≤ n.toNat) :
    finish s ⟨w, last, violations⟩ = (violations, { w with current := none }) := by
  have hexceeded : (s.group w.here.group).occurs.isExceeded (w.count w.hereMember) = false := by
    cases hm : (s.group w.here.group).occurs.max with
    | none => simp [Occurs.isExceeded, hm]
    | some n => simpa [Occurs.isExceeded, hm] using hmax n hm
  have hreach : reach { w with current := none } (hereMember { w with current := none }) =
      w.reach w.hereMember := rfl
  have hcount : count { w with current := none } (hereMember { w with current := none }) =
      w.count w.hereMember := rfl
  have hincomplete : isIncomplete s { w with current := none } last = w.isIncomplete s last := rfl
  simp only [finish, hreach, hcount, hexceeded, hincomplete, Occurs.isMissing]
  rcases hmin with hmin | hcomplete
  · rw [if_neg (by simpa using hmin)]
    rfl
  · rw [hcomplete]
    split <;> rfl

/-- A sequence is complete if no member of it was looked for. -/
theorem finish_of_admitted (last : Option Member) (violations : List Violation)
    (hmin : (s.group w.here.group).occurs.min.toNat ≤ w.reach w.hereMember ∨
      (s.group w.here.group).compositor = .sequence ∧ last = none)
    (hmax : ∀ n ∈ (s.group w.here.group).occurs.max, w.count w.hereMember ≤ n.toNat) :
    finish s ⟨w, last, violations⟩ = (violations, { w with current := none }) := by
  refine finish_of_complete last violations (hmin.imp_right ?_) hmax
  rintro ⟨hseq, rfl⟩
  simp [isIncomplete, hseq]

theorem isIncomplete_choice (hchoice : (s.group w.here.group).compositor = .choice)
    (last : Option Member) : w.isIncomplete s last = true := by
  unfold isIncomplete
  dsimp only
  rw [hchoice]

/-- A choice that occurred too seldom is reported. -/
theorem finish_of_missing (last : Option Member) (violations : List Violation) (hchoice : (s.group w.here.group).compositor = .choice)
    (hmin : w.reach w.hereMember < (s.group w.here.group).occurs.min.toNat) :
    finish s ⟨w, last, violations⟩ =
      (violations ++ [violation s { w with current := none } w.hereMember (w.count w.hereMember)],
        { w with current := none }) := by
  have hreach : reach { w with current := none } (hereMember { w with current := none }) =
      w.reach w.hereMember := rfl
  have hincomplete : isIncomplete s { w with current := none } last = true :=
    isIncomplete_choice hchoice last
  simp only [finish, hreach, Occurs.isMissing]
  rw [if_pos (by simpa using hmin), hincomplete, if_pos rfl]
  rfl

end Walk

/-! ## The next member -/

namespace Walk

variable {s : Schema} {w : Walk}

/-- A child counts for its member alone. -/
theorem count_take (w : Walk) (m x : Member) :
    (w.take m).count x = if x = m then w.count m + 1 else w.count x := by
  simp [take, count]

/-- A child that fills its member moves the walk on. -/
theorem advance_full {m : Member} (hcurrent : w.current = some m)
    (hne : (s.group w.here.group).compositor ≠ .all)
    (hover : (s.occurs m).isOver (w.count m + 1) = true)
    (hsure : (s.group w.here.group).compositor = .choice → (s.occurs m).isAmbiguous = false) :
    w.advance s true = (w.take m).moveOn s m := by
  have hgroup : (w.take m).here.group = w.here.group := rfl
  have hstay : (w.take m).staysOn s m = false := by
    have hover' : (s.occurs m).isOver ((w.take m).count m) = true := by
      rw [count_take, if_pos rfl]
      exact hover
    by_cases hchoice : (s.group w.here.group).compositor = .choice
    · simp [staysOn, hover', hsure hchoice]
    · simp [staysOn, hover', hgroup, hchoice]
  simp only [advance, hcurrent, hstay, hgroup, hne, if_true, Bool.false_eq_true, if_false]

/-- A child that does not fill its member leaves the walk on it. -/
theorem advance_stay {m : Member} (hcurrent : w.current = some m)
    (hne : (s.group w.here.group).compositor ≠ .all)
    (hover : (s.occurs m).isOver (w.count m + 1) = false) :
    w.advance s true = (.ok [], w.take m) := by
  have hgroup : (w.take m).here.group = w.here.group := rfl
  have hstay : (w.take m).staysOn s m = true := by
    have hcount : (w.take m).count m = w.count m + 1 := by rw [count_take, if_pos rfl]
    simp [staysOn, hcount, hover, hgroup, hne]
  simp only [advance, hcurrent, hstay, if_true]

theorem advance_pass {m : Member} (hcurrent : w.current = some m) :
    w.advance s false = w.moveOn s m := by
  simp only [advance, hcurrent, Bool.false_eq_true, if_false]

theorem closeGroup_of_root (h : w.outer = []) : w.closeGroup s = (none, w) := by
  unfold closeGroup
  rw [h]

/-- Nothing is passed over but in an `all` group. -/
theorem nextItem_of_ne_all (h : (s.group w.here.group).compositor ≠ .all) :
    w.nextItem s = match w.here.rest with
      | [] => (none, { w with here := { w.here with rest := [] } })
      | m :: rest => (some m, { w with here := { w.here with rest } }) := by
  have hnone : ∀ m, w.isPassed s m = false := by
    intro m
    simp [isPassed, h]
  unfold nextItem
  cases hrest : w.here.rest with
  | nil => rfl
  | cons m rest => rw [List.dropWhile_cons_of_neg (by simp [hnone])]

theorem items_of_ne_all {v : Version} {g : GroupId} (h : (s.group g).compositor ≠ .all)
    (hmax : (s.group g).occurs.max ≠ some 0) : items s v g = (s.group g).members := by
  simp [items, Occurs.isEmpty, h, hmax]

/-- A walk whose first member is a leaf stands on it at the start. -/
theorem start_of_leaf {root : GroupId} {v : Version} {m : Member} {rest : List Member}
    (h : (s.group root).compositor ≠ .all) (hitems : items s v root = m :: rest)
    (hm : m.isGroup = false) : Walk.start s root v =
      .ok ⟨root, v, ⟨root, rest, false⟩, [], Tally.zero, Tally.zero, some m⟩ := by
  obtain ⟨k, hk⟩ := Nat.exists_eq_add_of_le' s.sixteen_le_stepBudget
  have hnext : nextItem s ⟨root, v, ⟨root, m :: rest, false⟩, [], Tally.zero, Tally.zero, none⟩ =
      (some m, ⟨root, v, ⟨root, rest, false⟩, [], Tally.zero, Tally.zero, none⟩) :=
    nextItem_of_ne_all h
  have hseek : seekFirst s s.stepBudget
      ⟨root, v, ⟨root, m :: rest, false⟩, [], Tally.zero, Tally.zero, none⟩ =
        (.ok (), ⟨root, v, ⟨root, rest, false⟩, [], Tally.zero, Tally.zero, some m⟩) := by
    rw [hk, seekFirst, hnext]
    cases m with
    | group g => cases hm
    | element e => rfl
    | wildcard x => rfl
  simp only [Walk.start, restart, clear, hitems, hseek]

/-! ## The end of a member -/

section

variable {outer : List Frame} {m : Member}

/-- The last member of a list is the one behind which nothing is left. -/
theorem getLast?_eq_some_iff {before rest : List Member} (h : (before ++ m :: rest).Nodup) :
    (before ++ m :: rest).getLast? = some m ↔ rest = [] := by
  constructor
  · intro hlast
    cases rest with
    | nil => rfl
    | cons x rest =>
        rw [List.nodup_append, List.nodup_cons] at h
        have hin : m ∈ x :: rest := by
          have hrest : (x :: rest).getLast? = some m := by simpa using hlast
          exact List.mem_of_getLast? hrest
        exact absurd hin h.2.1.1
  · intro hrest
    rw [hrest]
    simp

/-- The end of a repetition of a sequence changes the tallies of the sequence alone. -/
theorem countSequence_eq (s : Schema) (w : Walk) : ∃ counts' ceilings',
    w.countSequence s = ⟨w.root, w.version, w.here, w.outer, counts', ceilings', w.current⟩ ∧
      ∀ x, x ≠ .group w.here.group →
        counts'.count x = w.counts.count x ∧ ceilings'.count x = w.ceilings.count x := by
  unfold countSequence
  split
  · exact ⟨_, _, rfl, fun _ _ => ⟨rfl, rfl⟩⟩
  · split
    · refine ⟨_, _, rfl, fun x hx => ?_⟩
      simp [hereMember, hx]
    · refine ⟨_, _, rfl, fun x hx => ?_⟩
      simp [hereMember, hx]

theorem closeInChoice_zero (h : w.count m = 0) : w.closeInChoice s m = (false, w) := by
  unfold closeInChoice
  rw [if_pos h]

theorem closeItem_choice (h : (s.group w.here.group).compositor = .choice) :
    closeItem s outer m w = (some (closeInChoice s { w with outer } m).1,
      (closeInChoice s { w with outer } m).2) := by
  unfold closeItem
  simp only [h]

theorem closeItem_all (h : (s.group w.here.group).compositor = .all) :
    closeItem s outer m w = (some false, { w with outer }) := by
  unfold closeItem
  simp only [h]

/-- A member ends that counts, in a sequence. -/
theorem closeItem_counted (h : (s.group w.here.group).compositor = .sequence)
    (hm : w.here.matched = true ∨ 0 < w.count m) :
    closeItem s outer m w =
      (some (closeInSequence s { w with outer, here := { w.here with matched := true } } m).1,
        (closeInSequence s { w with outer, here := { w.here with matched := true } } m).2) := by
  unfold closeItem
  have hcond : (w.here.matched || decide (0 < w.count m)) = true := by simpa using hm
  simp only [h]
  exact if_pos hcond

/-- A member ends that need not have occurred, in a sequence. -/
theorem closeItem_emptiable (h : (s.group w.here.group).compositor = .sequence)
    (hmatched : w.here.matched = false) (hcount : w.count m = 0) (hm : s.isEmptiable m = true) :
    closeItem s outer m w = (some false, { w with outer }) := by
  unfold closeItem
  have hcond : ¬(w.here.matched || decide (0 < w.count m)) = true := by simp [hmatched, hcount]
  simp only [h]
  exact (if_neg hcond).trans (if_pos hm)

/-- A sequence ends with a member that must have occurred. -/
theorem closeItem_unmatched (h : (s.group w.here.group).compositor = .sequence)
    (hmatched : w.here.matched = false) (hcount : w.count m = 0) (hm : s.isEmptiable m = false) :
    closeItem s outer m w = match outer with
      | f :: outer => closeItem s outer w.hereMember { w with here := f, outer := f :: outer }
      | [] => if (s.group w.here.group).occurs.min.toNat ≤ w.reach w.hereMember
          then (none, { w with outer := [] }) else (some true, { w with outer := [] }) := by
  have hcond : ¬(w.here.matched || decide (0 < w.count m)) = true := by simp [hmatched, hcount]
  cases outer with
  | nil =>
      unfold closeItem
      simp only [h]
      exact (if_neg hcond).trans (if_neg (by simp [hm]))
  | cons f outer =>
      rw [closeItem]
      simp only [h]
      exact (if_neg hcond).trans (if_neg (by simp [hm]))

/-- The root sequence ends with a member that must have occurred. -/
theorem closeLeaf_unmatched_root (houter : w.outer = [])
    (h : (s.group w.here.group).compositor = .sequence) (hmatched : w.here.matched = false)
    (hcount : w.count m = 0) (hm : s.isEmptiable m = false) :
    w.closeLeaf s m = if (s.group w.here.group).occurs.min.toNat ≤ w.reach w.hereMember
      then (none, w) else (some true, w) := by
  have hsame : ({ w with outer := [] } : Walk) = w := by rw [← houter]
  rw [closeLeaf, houter, closeItem_unmatched h hmatched hcount hm, hsame]

end

end Walk

end Conform
