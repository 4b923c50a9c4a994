import Conform.Proofs.Model.Attribution
import Conform.Proofs.Model.FlatWalk
import Conform.Proofs.Schema.Sample
/-!
# Repeated groups of single elements

A group of single elements that is repeated. In a sequence a repetition ends where the next child is
not one of the later members. In a choice every child is a repetition.
-/

namespace Conform

/-- A sequence of single elements that may occur. -/
structure Schema.IsRepeatedSequence (s : Schema) (root : GroupId) : Prop where
  flat : s.IsFlatSequence root
  nonempty : (s.group root).members ≠ []
  max_ne_zero : (s.group root).occurs.max ≠ some 0

namespace Walk

/-! ## Sequences -/

/-- A walk through a sequence of single elements, on a member or at its end. -/
def ThroughSequence (s : Schema) (root : GroupId) (w : Walk) (ns : List QName) : Prop :=
  w.current = none ∨ w.outer = [] ∧ ∃ m, w.OnSingle s root ns m

/-- What is still to come in a sequence before some of its members. If nothing has matched in this
repetition, it need not be one. -/
def SequenceRest (s : Schema) (root : GroupId) (matched : Bool) (k : Nat) (ms : List Member)
    (ns : List QName) : Prop :=
  SingleRest s root matched k ms ns ∨ matched = false ∧ ns = [] ∧ s.Row s.occurs ms []

/-- What is still to come of a walk through a sequence of single elements. -/
def SequenceResidual (s : Schema) (root : GroupId) (w : Walk) (ns : List QName) : Prop :=
  match w.current with
  | none => ns = []
  | some m => SequenceRest s root w.here.matched (w.count (.group root)) (m :: w.here.rest) ns

/-- How many members are passed without a child at most. -/
def sequenceTodo (s : Schema) (root : GroupId) (w : Walk) : Nat :=
  if w.current = none then 0 else w.singleTodo s root

variable {s : Schema} {root : GroupId} {w : Walk} {ns : List QName} {m : Member}
  {violations : List Violation} {last : Option Member}

theorem ThroughSequence.nil (h : w.ThroughSequence s root ns) : w.ThroughSequence s root [] := by
  rcases h with hended | ⟨houter, m, h⟩
  · exact .inl hended
  · obtain ⟨before, hmembers, -, hmatched⟩ := h.members
    exact .inr ⟨houter, m, h.inside, h.current, h.count_eq, h.not_over, before, hmembers,
      fun _ => PassedBy.nil before, hmatched⟩

/-- Where a walk through a sequence comes to. -/
abbrev ArrivesSequence (s : Schema) (root : GroupId) (P : Prop) (ns : List QName) (bound : Nat)
    (violations : List Violation) (r : Except Failure (List Violation) × Walk) : Prop :=
  Arrives (fun w ns => ThroughSequence s root w ns) (SequenceResidual s root)
    (sequenceTodo s root) P ns bound violations r

theorem sequenceRest_unmatched {k : Nat} {ms : List Member} :
    SequenceRest s root false k ms ns ↔
      s.More (.group root) k ns ∨ ns = [] ∧ s.Row s.occurs ms [] := by
  simp [SequenceRest, SingleRest]

/-- Before its first member a sequence that may occur is to come as often as its bounds admit. -/
theorem sequenceRest_first (hg : s.IsFlatSequence root) (hs : s.Built) {matched : Bool} {k : Nat}
    {ms : List Member} (hmax : ∀ n ∈ (s.group root).occurs.max, k ≤ n.toNat)
    (hfirst : matched = false → (s.group root).members = ms) :
    SequenceRest s root matched k ms ns ↔ SingleRest s root matched k ms ns := by
  constructor
  · intro hres
    rcases hres with hres | ⟨hunmatched, hnil, hrow⟩
    · exact hres
    · rw [hunmatched, hnil]
      rw [← hfirst hunmatched, Components.row_single_nil_iff hg.single] at hrow
      exact hg.more_nil hrow (hs.min_le_max (.group root)) hmax
  · exact .inl

/-- The end of a walk reports nothing if enough repetitions are there, or none was looked for. -/
theorem InSequence.arrives_end {P : Prop} (h : w.InSequence s root)
    (hg : s.IsFlatSequence root) (bound : Nat) (last : Option Member) (violations : List Violation)
    (hmax : ∀ n ∈ (s.group root).occurs.max, w.count (.group root) ≤ n.toNat)
    (hmin : (s.group root).occurs.min.toNat ≤ w.count (.group root) ∨ last = none)
    (hP : P ↔ ns = []) :
    ArrivesSequence s root P ns bound violations (settle s (.ended ⟨w, last, violations⟩)) := by
  have hreach := h.reach_eq
  obtain ⟨rfl, -⟩ := h
  have hfinish : finish s ⟨w, last, violations⟩ = (violations, { w with current := none }) := by
    apply finish_of_admitted last violations _ hmax
    rw [hreach]
    rcases hmin with hmin | hlast
    · exact .inl hmin
    · exact .inr ⟨hg.compositor, hlast⟩
  refine ⟨{ w with current := none }, ?_, .inl rfl, ?_, hP⟩
  · rw [settle, hfinish]
  · simp [sequenceTodo]

/-- From behind a member the walk comes to the next one, or to its end. -/
theorem BehindSingle.arrives {k : Nat} (h : w.BehindSingle s root k) (hg : s.IsRepeatedSequence root)
    (hs : s.Built) (ns : List QName) (last : Option Member) (violations : List Violation)
    (houter : w.outer = []) (hmax : ∀ n ∈ (s.group root).occurs.max, k < n.toNat) {n : Nat} :
    ArrivesSequence s root (s.RestThenMore root k w.here.rest ns) ns
      (w.here.rest.length + (s.group root).members.length) violations
      (settle s (Passage.run s (n + 2) ⟨w, last, violations⟩)) := by
  have hgroup := h.count_group
  by_cases hover : ∀ n ∈ (s.group root).occurs.max, w.count (.group root) < n.toNat
  · obtain ⟨w', m, hrun, hnext⟩ := h.run_placed hg.flat ns last violations hg.max_ne_zero
      hover (n := n)
    refine ⟨w', ?_, .inr ⟨hnext.stays.outer.trans houter, m, hnext.on⟩, ?_, ?_⟩
    · rw [hrun]
      rfl
    · rw [sequenceTodo, hnext.on.current, if_neg (by simp)]
      exact hnext.todo
    · rw [hnext.rest_iff]
      simp only [SequenceResidual, hnext.on.current]
      exact (sequenceRest_first hg.flat hs (fun n hn => Nat.le_of_lt (hnext.on.not_over n hn))
        fun hno => (hnext.first hno).1).symm
  · -- the bounds are reached
    have hstep : Passage.step s ⟨w, last, violations⟩ = .ended ⟨w, last, violations⟩ := by
      rw [Passage.step_of_over, closeGroup_of_root houter]
      · rfl
      · by_contra hno
        exact hover (h.inside.isGroupOver_iff.1 (by simpa using hno))
    obtain ⟨j, hj, hfull⟩ : ∃ j ∈ (s.group root).occurs.max, j.toNat ≤ w.count (.group root) := by
      simpa using hover
    have hlt := hmax j hj
    have hrest : w.here.rest = [] := by
      by_contra hne
      rw [if_neg hne] at hgroup
      omega
    rw [if_pos hrest] at hgroup
    have hbounds := hs.min_le_max (.group root) j hj
    rw [Passage.run_ended hstep]
    apply h.inside.arrives_end hg.flat _ last violations
    · intro n hn
      have := hmax n hn
      omega
    · exact .inl (Nat.le_trans hbounds hfull)
    · rw [hrest, Components.restThenMore_nil]
      exact Components.more_full hj (by omega) hbounds

/-- A child of a member is followed to the next one. -/
theorem OnSingle.take {n : QName} (h : w.OnSingle s root (n :: ns) m)
    (hg : s.IsRepeatedSequence root) (hs : s.Built) (houter : w.outer = [])
    (hn : s.passes m n = true) :
    ∃ w', w.advance s true = (.ok [], w') ∧ w'.ThroughSequence s root ns ∧
      (w.SequenceResidual s root (n :: ns) ↔ w'.SequenceResidual s root ns) := by
  obtain ⟨w₁, hclose, hstays, hbehind, hrest⟩ := h.close_taken hg.flat
  obtain ⟨k, hk⟩ := Nat.exists_eq_add_of_le' s.sixteen_le_stepBudget
  obtain ⟨w', hr, hthrough, -, hiff⟩ := hbehind.arrives hg hs ns none []
    (hstays.outer.trans houter) h.not_over (n := k + 14)
  refine ⟨w', ?_, hthrough, ?_⟩
  · rw [h.advance_eq hg.flat, moveOn_of_some hclose, hk]
    exact hr
  · rw [← hiff, hrest, ← h.singleRest_take hg.flat hn]
    simp [SequenceResidual, h.current, SequenceRest]

theorem sequenceTodo_of_current (h : w.current = some m) :
    w.sequenceTodo s root = w.singleTodo s root := by
  simp [sequenceTodo, h]

/-- A member of a repetition that has begun is passed. It is missing if it must be there. -/
theorem OnSingle.pass_matched (h : w.OnSingle s root ns m) (hg : s.IsRepeatedSequence root)
    (hs : s.Built) (houter : w.outer = []) (hmatched : w.here.matched = true)
    (hn : ∀ n ∈ ns.head?, s.passes m n = false) :
    ∃ violations w', w.moveOn s m = (.ok violations, w') ∧ w'.ThroughSequence s root ns ∧
      w'.sequenceTodo s root < w.sequenceTodo s root ∧
      (w.SequenceResidual s root ns ↔ violations = [] ∧ w'.SequenceResidual s root ns) := by
  obtain ⟨w₁, hclose, hstays, hbehind, hrest⟩ := h.close_matched hg.flat hmatched
  obtain ⟨k, hk⟩ := Nat.exists_eq_add_of_le' s.sixteen_le_stepBudget
  obtain ⟨w', hr, hthrough, htodo, hiff⟩ := hbehind.arrives hg hs ns none
    (if (s.occurs m).isMissing 0 then [⟨m, w.count m, [m]⟩] else []) (hstays.outer.trans houter)
    h.not_over (n := k + 14)
  refine ⟨if (s.occurs m).isMissing 0 then [⟨m, w.count m, [m]⟩] else [], w', ?_, hthrough, ?_, ?_⟩
  · rw [moveOn_of_some hclose, hk]
    exact hr
  · rw [sequenceTodo_of_current h.current, singleTodo, if_pos hmatched]
    rw [hrest] at htodo
    omega
  · have hres := h.singleRest_matched hg.flat hmatched hn
    rw [hmatched] at hres
    rw [← hiff, hrest]
    simp only [SequenceResidual, h.current, SequenceRest, hmatched, hres]
    simp

/-- From a place before some members, none of the repetition being there, the walk comes to the first
of them, or to its end. -/
theorem InSequence.arrives_before (h : w.InSequence s root) (hg : s.IsRepeatedSequence root)
    {before : List Member} (ns : List QName) (last : Option Member) (violations : List Violation)
    (houter : w.outer = [])
    (hover : ∀ n ∈ (s.group root).occurs.max, w.count (.group root) < n.toNat)
    (hmembers : (s.group root).members = before ++ w.here.rest) (hmatched : w.here.matched = false)
    (hpassed : PassedBy s before ns) {n : Nat} :
    ArrivesSequence s root (SequenceRest s root false (w.count (.group root)) w.here.rest ns) ns
      w.here.rest.length violations
      (settle s (Passage.run s (n + 1) ⟨w, last, violations⟩)) := by
  cases hrest : w.here.rest with
  | nil =>
      have hnext := nextItem_of_ne_all (s := s) (w := w)
        (by rw [h.here, hg.flat.compositor]; simp)
      have hsame : ({ w with here := { w.here with rest := [] } } : Walk) = w := by rw [← hrest]
      rw [hrest, hsame] at hnext
      have hstep : Passage.step s ⟨w, last, violations⟩ = .ended ⟨w, none, violations⟩ := by
        rw [Passage.step_of_none (h.isGroupOver_iff.2 hover) hnext]
        simp [Passage.leaveEnd, Passage.leaveUnmatched, hmatched, h.here, hg.flat.compositor,
          closeGroup_of_root, houter]
      rw [Passage.run_ended hstep]
      apply h.arrives_end hg.flat _ none violations (fun n hn => Nat.le_of_lt (hover n hn)) (.inr rfl)
      rw [sequenceRest_unmatched]
      constructor
      · intro hres
        rcases hres with hmore | ⟨hnil, -⟩
        · rcases hpassed with hnil | hskip
          · exact hnil
          · refine hg.flat.more_skip (fun x hx => (hskip x ?_).2) hmore
            rw [hmembers, hrest, List.append_nil] at hx
            exact hx
        · exact hnil
      · intro hnil
        exact .inr ⟨hnil, .nil⟩
  | cons m rest =>
      obtain ⟨w', hrun, hstays, hon, hhere, hcount⟩ := h.run_placed hg.flat ns last violations
        hover (hrest ▸ hmembers) hrest (fun _ => hpassed)
        (fun hno => by rw [hmatched] at hno; cases hno) (n := n)
      refine ⟨w', ?_, .inr ⟨hstays.outer.trans houter, m, hon⟩, ?_, ?_⟩
      · rw [hrun]
        rfl
      · rw [sequenceTodo_of_current hon.current, singleTodo, hhere, hmatched]
        simp
        omega
      · simp only [SequenceResidual, hon.current]
        rw [hhere, hcount, hmatched]

/-- A member is passed before a repetition has begun. If it must be there, no repetition begins. -/
theorem OnSingle.pass_unmatched (h : w.OnSingle s root ns m) (hg : s.IsRepeatedSequence root)
    (houter : w.outer = []) (hmatched : w.here.matched = false)
    (hn : ∀ n ∈ ns.head?, s.passes m n = false) :
    ∃ violations w', w.moveOn s m = (.ok violations, w') ∧
      (violations = [] → w'.ThroughSequence s root ns) ∧ w'.ThroughSequence s root [] ∧
      w'.sequenceTodo s root < w.sequenceTodo s root ∧
      (w.SequenceResidual s root ns ↔ violations = [] ∧ w'.SequenceResidual s root ns) := by
  obtain ⟨before, hmembers, hpassed, -⟩ := h.members
  have hmembers' : (s.group root).members = (before ++ [m]) ++ w.here.rest := by
    rw [hmembers]
    simp
  have hsingle : s.Single (m :: w.here.rest) := (hmembers ▸ hg.flat.single).of_append
  have htodo : w.sequenceTodo s root = 1 + w.here.rest.length := by
    rw [sequenceTodo_of_current h.current, singleTodo, hmatched]
    rfl
  have hres : w.SequenceResidual s root ns ↔ s.More (.group root) (w.count (.group root)) ns ∨
      ns = [] ∧ (s.occurs m).min.toNat = 0 ∧ s.Row s.occurs w.here.rest [] := by
    simp only [SequenceResidual, h.current]
    rw [hmatched, sequenceRest_unmatched, Components.row_single_cons_iff hsingle]
    simp
  obtain ⟨k, hk⟩ := Nat.exists_eq_add_of_le' s.sixteen_le_stepBudget
  by_cases hzero : (s.occurs m).min.toNat = 0
  · -- the member need not be there
    have hclose := h.close_optional hg.flat hmatched hzero
    obtain ⟨w', hr, hthrough, htodo', hiff⟩ := h.inside.arrives_before hg ns none [] houter
      h.not_over hmembers' hmatched ((hpassed hmatched).snoc hzero hn) (n := k + 15)
    refine ⟨[], w', ?_, fun _ => hthrough, hthrough.nil, by omega, ?_⟩
    · rw [moveOn_of_some hclose, hk]
      exact hr
    · rw [← hiff, hres, sequenceRest_unmatched]
      simp [hzero]
  · have hempty : s.isEmptiable m = false := by
      have hleaf := hg.flat.distinct.isGroup_eq_false (m := m) (by simp [hmembers])
      by_contra hno
      exact hzero ((s.isEmptiable_leaf hleaf).1 (by simpa using hno))
    have hreq := h.more_required hg.flat hmatched hzero (List.append_nil ns).symm hn
      (w.count (.group root))
    have hclose := closeLeaf_unmatched_root houter (by rw [h.inside.here, hg.flat.compositor])
      hmatched h.count_eq hempty
    rw [h.inside.reach_eq, h.inside.here] at hclose
    have hle : ∀ n ∈ (s.group root).occurs.max, w.count (.group root) ≤ n.toNat :=
      fun n hn => Nat.le_of_lt (h.not_over n hn)
    by_cases hmin : (s.group root).occurs.min.toNat ≤ w.count (.group root)
    · -- enough repetitions are there
      rw [if_pos hmin] at hclose
      obtain ⟨w', hr, hthrough, htodo', hiff⟩ := h.inside.arrives_end hg.flat 0 none [] hle
        (.inl hmin) (Iff.refl (ns = []))
      refine ⟨[], w', ?_, fun _ => hthrough, hthrough.nil, by omega, ?_⟩
      · rw [moveOn_of_none hclose]
        exact hr
      · rw [hres, hreq, ← hiff]
        constructor
        · intro hcases
          rcases hcases with hcase | hcase
          · exact ⟨rfl, hcase.1⟩
          · exact ⟨rfl, hcase.1⟩
        · intro hnil
          exact .inl ⟨hnil.2, hmin, hle⟩
    · -- one more repetition must begin
      rw [if_neg hmin] at hclose
      obtain ⟨w', hr, hthrough, htodo', -⟩ := h.inside.arrives_before hg [] none
        [⟨m, w.count m, [m]⟩] houter h.not_over hmembers' hmatched (PassedBy.nil _) (n := k + 15)
      refine ⟨[⟨m, w.count m, [m]⟩], w', ?_, by simp, hthrough, by omega, ?_⟩
      · rw [moveOn_of_some hclose, hk]
        exact hr
      · rw [hres, hreq]
        constructor
        · intro hcases
          rcases hcases with ⟨-, hadmits⟩ | ⟨-, hno, -⟩
          · exact absurd hadmits.1 hmin
          · exact absurd hno hzero
        · intro hno
          cases hno.1

theorem recognizes_sequence (hg : s.IsRepeatedSequence root) (hs : s.Built) :
    Recognizes s (fun w ns => w.ThroughSequence s root ns) (SequenceResidual s root)
      (sequenceTodo s root) where
  ended := by
    intro w ns _ hended
    simp [SequenceResidual, hended]
  take := by
    intro w m n ns hthrough hcurrent hn
    rcases hthrough with hended | ⟨houter, m', h⟩
    · rw [hended] at hcurrent
      cases hcurrent
    obtain rfl : m' = m := Option.some.inj (h.current.symm.trans hcurrent)
    obtain ⟨w', hadvance, hthrough', hiff⟩ := h.take hg hs houter hn
    exact ⟨[], w', hadvance, hthrough', by simpa using hiff⟩
  pass := by
    intro w m ns hthrough hcurrent hn
    rcases hthrough with hended | ⟨houter, m', h⟩
    · rw [hended] at hcurrent
      cases hcurrent
    obtain rfl : m' = m := Option.some.inj (h.current.symm.trans hcurrent)
    rw [advance_pass hcurrent]
    cases hmatched : w.here.matched with
    | true =>
        obtain ⟨violations, w', hr, hthrough', htodo, hiff⟩ :=
          h.pass_matched hg hs houter hmatched hn
        exact ⟨violations, w', hr, fun _ => hthrough', hthrough'.nil, htodo, hiff⟩
    | false => exact h.pass_unmatched hg houter hmatched hn
  budget := by
    intro w ns hthrough
    rcases hthrough with hended | ⟨-, m, h⟩
    · simp [sequenceTodo, hended]
    · rw [sequenceTodo_of_current h.current]
      have htodo := h.singleTodo_le
      have hlength := hs.forest.length_members_le root
      have hbudget := s.mul_le_stepBudget (i := 1) (j := 4 * (s.particles.length + 2))
        (by omega) (by omega)
      omega

/-- The walk at the start stands on the first member, where all words are still to come. -/
theorem start_sequence (hg : s.IsRepeatedSequence root) (hs : s.Built) (ns : List QName) :
    ∃ w, Walk.start s root s.version = .ok w ∧ w.ThroughSequence s root ns ∧
      (w.SequenceResidual s root ns ↔ s.Words s.occurs (.group root) ns) := by
  obtain ⟨m, rest, hmembers⟩ := List.exists_cons_of_ne_nil hg.nonempty
  have hleaf := hg.flat.distinct.isGroup_eq_false (m := m) (by simp [hmembers])
  have hne : (s.group root).compositor ≠ .all := by
    rw [hg.flat.compositor]
    simp
  have hitems : items s s.version root = m :: rest := by
    rw [← hmembers]
    exact items_of_ne_all hne hg.max_ne_zero
  refine ⟨_, start_of_leaf hne hitems hleaf, .inr ⟨rfl, m, ?_⟩, ?_⟩
  · refine ⟨⟨rfl, rfl, by simp, by simp [count]⟩, rfl, rfl, ?_, [], hmembers, ?_, by simp⟩
    · intro n hn
      simpa [count] using Occurs.max_pos hg.max_ne_zero hn
    · exact fun _ => .inr (by simp)
  · rw [← Components.more_zero]
    simp only [SequenceResidual]
    exact sequenceRest_first hg.flat hs (by simp [count]) (fun _ => hmembers)

/-! ## Choices -/

/-- A walk through a choice, on an alternative or at its end. -/
def ThroughChoice (s : Schema) (root : GroupId) (w : Walk) (ns : List QName) : Prop :=
  w.current = none ∨ w.outer = [] ∧ ∃ m, w.OnAlternative s root ns m

/-- What is still to come of a walk through a choice between single elements. -/
def ChoiceResidual (s : Schema) (root : GroupId) (w : Walk) (ns : List QName) : Prop :=
  if w.current = none then ns = [] else s.More (.group root) (w.count (.group root)) ns

/-- How many alternatives are passed without a child at most. -/
def choiceTodo (w : Walk) : Nat := if w.current = none then 0 else 1 + w.here.rest.length

/-- Where a walk through a choice comes to. -/
def ComesChoice (s : Schema) (root : GroupId) (P : Prop) (ns : List QName) (bound : Nat)
    (r : Except Failure (List Violation) × Walk) : Prop :=
  ∃ violations w, r = (.ok violations, w) ∧ w.ThroughChoice s root ns ∧ w.choiceTodo ≤ bound ∧
    (P ↔ violations = [] ∧ w.ChoiceResidual s root ns)

/-- The end of the walk reports a choice that was repeated too seldom. -/
theorem InChoice.comes_end {P : Prop} {bound : Nat} (h : w.InChoice s root)
    (hg : s.IsFlatChoice root)
    (hmax : ∀ n ∈ (s.group root).occurs.max, w.count (.group root) ≤ n.toNat)
    (hP : P ↔ ns = [] ∧ (s.group root).occurs.Admits (w.count (.group root))) :
    ComesChoice s root P ns bound (settle s (.ended ⟨w, last, []⟩)) := by
  have hreach := h.reach_eq
  obtain ⟨rfl, -⟩ := h
  by_cases hmin : (s.group w.here.group).occurs.min.toNat ≤ w.count (.group w.here.group)
  · have hfinish := finish_of_admitted last [] (w := w) (.inl (by rw [hreach]; exact hmin)) hmax
    refine ⟨[], { w with current := none }, by rw [settle, hfinish], .inl rfl, ?_, ?_⟩
    · simp [choiceTodo]
    · rw [hP]
      simp only [ChoiceResidual, if_true, true_and]
      constructor
      · intro hnil
        exact hnil.1
      · intro hnil
        exact ⟨hnil, hmin, hmax⟩
  · have hfinish := finish_of_missing last [] hg.compositor (w := w)
      (by rw [hreach]; exact Nat.lt_of_not_le hmin)
    refine ⟨_, { w with current := none }, by rw [settle, hfinish], .inl rfl, ?_, ?_⟩
    · simp [choiceTodo]
    · rw [hP]
      constructor
      · intro hadmits
        exact absurd hadmits.2.1 hmin
      · intro hnil
        simp at hnil

/-- From a place before some alternatives the walk comes to the first of them, or to its end. -/
theorem InChoice.comes_before {before : List Member} (h : w.InChoice s root)
    (hg : s.IsFlatChoice root) (ns : List QName) (last : Option Member) (houter : w.outer = [])
    (hover : ∀ n ∈ (s.group root).occurs.max, w.count (.group root) < n.toNat)
    (hmembers : (s.group root).members = before ++ w.here.rest)
    (hskip : ∀ x ∈ before, ∀ n ∈ ns.head?, s.passes x n = false) {n : Nat} :
    ComesChoice s root (s.More (.group root) (w.count (.group root)) ns) ns w.here.rest.length
      (settle s (Passage.run s (n + 1) ⟨w, last, []⟩)) := by
  cases hrest : w.here.rest with
  | nil =>
      have hstep : Passage.step s ⟨w, last, []⟩ = .ended ⟨w, none, []⟩ := by
        rw [h.step_end hg hover hrest last []]
        simp [Passage.leaveUnmatched, h.here, hg.compositor, closeGroup_of_root, houter]
      rw [Passage.run_ended hstep]
      refine h.comes_end hg (fun n hn => Nat.le_of_lt (hover n hn)) (hg.more_skip ?_)
      rw [hmembers, hrest, List.append_nil]
      exact hskip
  | cons m rest =>
      obtain ⟨w', hrun, hstays, hon, hhere, hcount⟩ := h.run_placed hg ns last [] hover
        (hrest ▸ hmembers) hrest hskip (n := n)
      refine ⟨[], w', ?_, .inr ⟨hstays.outer.trans houter, m, hon⟩, ?_, ?_⟩
      · rw [hrun]
        rfl
      · simp [choiceTodo, hon.current, hhere]
        omega
      · simp [ChoiceResidual, hon.current, hcount]

/-- A child of an alternative is one repetition. -/
theorem OnAlternative.take {n : QName} (h : w.OnAlternative s root (n :: ns) m)
    (hg : s.IsFlatChoice root) (hs : s.Built) (hmax : (s.group root).occurs.max ≠ some 0)
    (houter : w.outer = []) (hn : s.passes m n = true) :
    ComesChoice s root (s.More (.group root) (w.count (.group root)) (n :: ns)) ns
      (s.group root).members.length (w.advance s true) := by
  obtain ⟨before, hmembers, -⟩ := h.members
  have hm : m ∈ (s.group root).members := by simp [hmembers]
  obtain ⟨w₁, hclose, hstays, hinside, hrest, hcount⟩ := h.close_taken hg hmax
  have houter₁ : w₁.outer = [] := hstays.outer.trans houter
  obtain ⟨k, hk⟩ := Nat.exists_eq_add_of_le' s.sixteen_le_stepBudget
  rw [h.advance_eq hg, moveOn_of_some hclose, hk, hg.more_take hm hn, ← hcount]
  by_cases hover : ∀ n ∈ (s.group root).occurs.max, w₁.count (.group root) < n.toNat
  · have hmembers' : (s.group root).members = [] ++ w₁.here.rest := by
      rw [hrest, List.nil_append]
    have hcomes := hinside.comes_before hg ns none houter₁ hover hmembers' (by simp)
      (n := k + 15)
    rw [hrest] at hcomes
    exact hcomes
  · -- the bounds are reached
    have hstep : Passage.step s ⟨w₁, none, []⟩ = .ended ⟨w₁, none, []⟩ := by
      rw [Passage.step_of_over, closeGroup_of_root houter₁]
      · rfl
      · by_contra hno
        exact hover (hinside.isGroupOver_iff.1 (by simpa using hno))
    obtain ⟨j, hj, hfull⟩ : ∃ j ∈ (s.group root).occurs.max, j.toNat ≤ w₁.count (.group root) := by
      simpa using hover
    have hle : ∀ n ∈ (s.group root).occurs.max, w₁.count (.group root) ≤ n.toNat := by
      intro n hn
      have := h.not_over n hn
      omega
    have hbounds := hs.min_le_max (.group root) j hj
    rw [if_neg (by simp), Passage.run_ended hstep]
    refine hinside.comes_end hg hle ?_
    rw [Components.more_full (m := .group root) hj (Nat.le_antisymm (hle j hj) hfull) hbounds]
    constructor
    · intro hnil
      exact ⟨hnil, Nat.le_trans hbounds hfull, hle⟩
    · intro hnil
      exact hnil.1

/-- An alternative that is not there is passed. -/
theorem OnAlternative.pass (h : w.OnAlternative s root ns m) (hg : s.IsFlatChoice root)
    (houter : w.outer = []) (hn : ∀ n ∈ ns.head?, s.passes m n = false) :
    ComesChoice s root (s.More (.group root) (w.count (.group root)) ns) ns w.here.rest.length
      (w.advance s false) := by
  obtain ⟨before, hmembers, hskip⟩ := h.members
  have hmembers' : (s.group root).members = (before ++ [m]) ++ w.here.rest := by
    rw [hmembers]
    simp
  have hskip' : ∀ x ∈ before ++ [m], ∀ n ∈ ns.head?, s.passes x n = false := by
    intro x hx
    rcases List.mem_append.1 hx with hx | hx
    · exact hskip x hx
    · obtain rfl : x = m := by simpa using hx
      exact hn
  obtain ⟨k, hk⟩ := Nat.exists_eq_add_of_le' s.sixteen_le_stepBudget
  rw [advance_pass h.current, moveOn_of_some (h.close_passed hg), hk]
  exact h.inside.comes_before hg ns none houter h.not_over hmembers' hskip' (n := k + 15)

theorem ThroughChoice.nil (h : w.ThroughChoice s root ns) : w.ThroughChoice s root [] := by
  rcases h with hended | ⟨houter, m, h⟩
  · exact .inl hended
  · obtain ⟨before, hmembers, -⟩ := h.members
    exact .inr ⟨houter, m, h.inside, h.current, h.not_over, before, hmembers, by simp⟩

theorem recognizes_choice (hg : s.IsFlatChoice root) (hs : s.Built)
    (hmax : (s.group root).occurs.max ≠ some 0) :
    Recognizes s (fun w ns => w.ThroughChoice s root ns) (ChoiceResidual s root) choiceTodo where
  ended := by
    intro w ns _ hended
    simp [ChoiceResidual, hended]
  take := by
    intro w m n ns hthrough hcurrent hn
    rcases hthrough with hended | ⟨houter, m', h⟩
    · rw [hended] at hcurrent
      cases hcurrent
    obtain rfl : m' = m := Option.some.inj (h.current.symm.trans hcurrent)
    obtain ⟨violations, w', hr, hthrough', -, hiff⟩ := h.take hg hs hmax houter hn
    refine ⟨violations, w', hr, hthrough', ?_⟩
    rw [← hiff]
    simp [ChoiceResidual, hcurrent]
  pass := by
    intro w m ns hthrough hcurrent hn
    rcases hthrough with hended | ⟨houter, m', h⟩
    · rw [hended] at hcurrent
      cases hcurrent
    obtain rfl : m' = m := Option.some.inj (h.current.symm.trans hcurrent)
    obtain ⟨violations, w', hr, hthrough', htodo, hiff⟩ := h.pass hg houter hn
    refine ⟨violations, w', hr, fun _ => hthrough', hthrough'.nil, ?_, ?_⟩
    · simp only [choiceTodo, hcurrent, reduceCtorEq, if_false] at htodo ⊢
      omega
    · rw [← hiff]
      simp [ChoiceResidual, hcurrent]
  budget := by
    intro w ns hthrough
    rcases hthrough with hended | ⟨-, m, h⟩
    · simp [choiceTodo, hended]
    · obtain ⟨before, hmembers, -⟩ := h.members
      have hrest : w.here.rest.length < (s.group root).members.length := by
        simp [hmembers]
        omega
      have hlength := hs.forest.length_members_le root
      have hbudget := s.mul_le_stepBudget (i := 1) (j := 4 * (s.particles.length + 2))
        (by omega) (by omega)
      simp only [choiceTodo]
      split <;> omega

/-- The walk at the start stands on the first alternative. -/
theorem start_choice (hg : s.IsFlatChoice root) (hmax : (s.group root).occurs.max ≠ some 0)
    (ns : List QName) :
    ∃ w, Walk.start s root s.version = .ok w ∧ w.ThroughChoice s root ns ∧
      (w.ChoiceResidual s root ns ↔ s.More (.group root) 0 ns) := by
  obtain ⟨m, rest, hmembers⟩ := List.exists_cons_of_ne_nil hg.nonempty
  have hm : m ∈ (s.group root).members := by simp [hmembers]
  have hne : (s.group root).compositor ≠ .all := by
    rw [hg.compositor]
    simp
  have hitems : items s s.version root = m :: rest := by
    rw [← hmembers]
    exact items_of_ne_all hne hmax
  have hstart := start_of_leaf hne hitems (hg.distinct.isGroup_eq_false hm)
  refine ⟨_, hstart, .inr ⟨rfl, m, ?_⟩, by simp [ChoiceResidual, count]⟩
  refine ⟨⟨rfl, rfl, rfl, by simp, by simp [count]⟩, rfl, ?_, [], hmembers, by simp⟩
  intro n hn
  simpa [count] using Occurs.max_pos hmax hn

end Walk

/-- Which children repeated groups of single elements admit: the repetitions of a sequence, or as
many alternatives of a choice as there may be. -/
theorem Schema.repeated_group_exact {s : Schema} {root : GroupId} (hs : s.Built)
    (names : List QName) :
    (s.IsRepeatedSequence root → ∃ issues, s.issues root names = .ok issues ∧
      (issues = [] ↔ ∃ n, (s.group root).occurs.Admits n ∧
        s.Times s.occurs (.group root) n names)) ∧
    (s.IsFlatChoice root → (s.group root).occurs.max ≠ some 0 →
      ∃ issues, s.issues root names = .ok issues ∧
        (issues = [] ↔ (∀ n ∈ names, ∃ m ∈ (s.group root).members, s.passes m n = true) ∧
          (s.group root).occurs.Admits names.length)) := by
  constructor
  · intro hg
    obtain ⟨w, hstart, hthrough, hres⟩ := Walk.start_sequence hg hs names
    obtain ⟨issues, hissues, hiff⟩ :=
      Schema.issues_iff_of_recognizes (Walk.recognizes_sequence hg hs) hstart hthrough
    refine ⟨issues, hissues, ?_⟩
    rw [hiff, hres]
    constructor
    · intro hwords
      obtain ⟨hadmits, htimes⟩ := hwords
      exact ⟨_, hadmits, htimes⟩
    · intro hwords
      obtain ⟨n, hadmits, htimes⟩ := hwords
      exact ⟨hadmits, htimes⟩
  · intro hg hmax
    obtain ⟨w, hstart, hthrough, hres⟩ := Walk.start_choice hg hmax names
    obtain ⟨issues, hissues, hiff⟩ :=
      Schema.issues_iff_of_recognizes (Walk.recognizes_choice hg hs hmax) hstart hthrough
    refine ⟨issues, hissues, ?_⟩
    rw [hiff, hres, hg.more_iff, Nat.zero_add]
    exact And.comm

/-- Two or three times `a` with or without `b`, and one or two of `c` and `d`. -/
def repeatedSample : Components :=
  ((Components.withElements .v10
    [("a", .once), ("b", .optional), ("c", .once), ("d", .once)]).withGroup .sequence ⟨2, some 3⟩
      [.element ⟨0⟩, .element ⟨1⟩]).withGroup .choice ⟨1, some 2⟩ [.element ⟨2⟩, .element ⟨3⟩]

theorem repeated_group_exact_sample :
    repeatedSample.schema.issues ⟨0⟩ [.plain "a", .plain "b", .plain "a"] = .ok [] ∧
      repeatedSample.schema.issues ⟨1⟩ [.plain "d", .plain "c"] = .ok [] := by
  have hs : repeatedSample.schema.Built :=
    (((Components.assembled_withElements ..).withGroup ..).withGroup ..).built rfl
  have hsequence : repeatedSample.schema.IsRepeatedSequence ⟨0⟩ := by
    refine ⟨⟨rfl, ?_, ⟨[⟨0⟩, ⟨1⟩], rfl, by decide +kernel⟩⟩, by decide +kernel, by decide +kernel⟩
    unfold Components.Single
    decide +kernel
  have hchoice : repeatedSample.schema.IsFlatChoice ⟨1⟩ :=
    ⟨rfl, by decide +kernel, ⟨[⟨2⟩, ⟨3⟩], rfl, by decide +kernel⟩, by decide +kernel⟩
  constructor
  · obtain ⟨issues, hissues, hiff⟩ := (Schema.repeated_group_exact hs
      [.plain "a", .plain "b", .plain "a"]).1 hsequence
    have hwords : ∀ m ∈ (repeatedSample.schema.group ⟨0⟩).members, ∀ n : QName,
        repeatedSample.schema.passes m n = true →
          repeatedSample.schema.Words repeatedSample.schema.occurs m [n] :=
      fun m hm n hn => (Components.words_single_iff hsequence.flat.single hm).2 (.inr ⟨n, rfl, hn⟩)
    have ha := hwords (.element ⟨0⟩) (by decide +kernel) (.plain "a") (by decide +kernel)
    have hb := hwords (.element ⟨1⟩) (by decide +kernel) (.plain "b") (by decide +kernel)
    have hempty := (Components.words_single_iff hsequence.flat.single
      (m := .element ⟨1⟩) (by decide +kernel)).2 (.inl ⟨rfl, by decide +kernel⟩)
    have hlong := hsequence.flat.once_iff.2 (.cons ha (.singleton hb))
    have hshort := hsequence.flat.once_iff.2 (.cons ha (.singleton hempty))
    have hnone : issues = [] :=
      hiff.2 ⟨2, by decide +kernel, .succ hlong (.succ hshort .zero)⟩
    rwa [hnone] at hissues
  · obtain ⟨issues, hissues, hiff⟩ := (Schema.repeated_group_exact hs
      [.plain "d", .plain "c"]).2 hchoice (by decide +kernel)
    have hnone : issues = [] := hiff.2 (by decide +kernel)
    rwa [hnone] at hissues

end Conform
