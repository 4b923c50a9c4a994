import Conform.Proofs.Model.Attribution
import Conform.Proofs.Model.Steps
import Conform.Proofs.Model.Words
import Conform.Proofs.Schema.Sample
import Mathlib.Data.List.TakeWhile
/-!
# Groups of members in any order

The walk through an `all` group looks for every child among the members that may still occur, from
the first one on. Its counts say all that the children so far have to say.
-/

namespace Conform

/-- A group that occurs at most once, of elements with different names in any order. -/
structure Schema.IsAllOfElements (s : Schema) (root : GroupId) : Prop where
  compositor : (s.group root).compositor = .all
  min_le : (s.group root).occurs.min.toNat ≤ 1
  max : (s.group root).occurs.max = some 1
  distinct : s.DistinctElements (s.group root).members

/-- The members are the same in both versions. -/
theorem Schema.IsAllOfElements.unordered_eq {s : Schema} {root : GroupId}
    (h : s.IsAllOfElements root) (hs : s.Built) (v : Version) :
    s.unordered v root = (s.group root).members := by
  cases v with
  | v10 => rfl
  | v11 =>
      unfold Schema.unordered
      rw [hs.leaves_eq]
      obtain ⟨es, hes, -⟩ := h.distinct
      rw [hes]
      clear hes
      induction es with
      | nil => rfl
      | cons e es ih => simpa using ih

namespace Walk

/-- Children that the walk through an `all` group still needs. -/
def Completes (s : Schema) (root : GroupId) (w : Walk) (ns : List QName) : Prop :=
  (∀ n ∈ ns, ∃ m ∈ (s.group root).members, s.passes m n = true) ∧
      (∀ m ∈ (s.group root).members, (s.occurs m).Admits (w.count m + ns.countP (s.passes m))) ∨
    (∀ m ∈ (s.group root).members, w.count m = 0) ∧ ns = [] ∧ (s.group root).occurs.min = 0

/-- A walk inside an `all` group. -/
structure InAll (s : Schema) (root : GroupId) (w : Walk) : Prop where
  here : w.here.group = root
  outer : w.outer = []
  count_root : w.count (.group root) = 0
  ceiling_root : w.ceilings.count (.group root) = 0
  le_max : ∀ m ∈ (s.group root).members, ∀ n ∈ (s.occurs m).max, w.count m ≤ n.toNat
  unmatched : w.here.matched = false →
    w.isSatisfied s = true ∨ ∀ m ∈ (s.group root).members, w.count m = 0
  matched : w.here.matched = true → ∃ m ∈ (s.group root).members, 0 < w.count m

/-- No member of a list that may still occur has the name of the next child. -/
def Skipped (s : Schema) (w : Walk) (ms : List Member) (ns : List QName) : Prop :=
  ∀ m ∈ ms, (s.occurs m).isOver (w.count m) = false → ∀ n ∈ ns.head?, s.passes m n = false

/-- A walk on a member of an `all` group, with the children that are left. -/
structure OnMember (s : Schema) (root : GroupId) (w : Walk) (ns : List QName) (m : Member) :
    Prop where
  inAll : w.InAll s root
  current : w.current = some m
  not_over : (s.occurs m).isOver (w.count m) = false
  members : ∃ before, (s.group root).members = before ++ m :: w.here.rest ∧
    Skipped s w before ns

/-- A walk through an `all` group, on a member or at its end. -/
def Through (s : Schema) (root : GroupId) (w : Walk) (ns : List QName) : Prop :=
  w.current = none ∨ ∃ m, w.OnMember s root ns m

/-- What is still to come: nothing if the walk is over. -/
def Residual (s : Schema) (root : GroupId) (w : Walk) (ns : List QName) : Prop :=
  if w.current = none then ns = [] else w.Completes s root ns

/-- How many members are passed without a child at most. -/
def allTodo (s : Schema) (root : GroupId) (w : Walk) : Nat :=
  if w.current = none then 0
  else 1 + w.here.rest.length + if w.here.matched then (s.group root).members.length + 1 else 0

variable {s : Schema} {root : GroupId} {w : Walk} {ns : List QName}

theorem skipped_nil (w : Walk) (ns : List QName) : Skipped s w [] ns := by
  intro m hm
  cases hm

theorem Through.nil (h : w.Through s root ns) : w.Through s root [] := by
  rcases h with hended | ⟨m, hinAll, hcurrent, hnot, before, hmembers, -⟩
  · exact .inl hended
  · exact .inr ⟨m, hinAll, hcurrent, hnot, before, hmembers, by simp [Skipped]⟩

/-- The group has no place for the next child if no member has. -/
theorem Completes.ns_eq_nil (h : w.Completes s root ns)
    (hskip : Skipped s w (s.group root).members ns) : ns = [] := by
  rcases h with ⟨hnames, hadmits⟩ | ⟨-, hnil, -⟩
  · cases ns with
    | nil => rfl
    | cons n ns =>
        obtain ⟨m, hm, hpasses⟩ := hnames n (List.mem_cons_self ..)
        have hcount := (hadmits m hm).2
        rw [List.countP_cons_of_pos hpasses] at hcount
        have hnot : (s.occurs m).isOver (w.count m) = false := by
          cases hmax : (s.occurs m).max with
          | none => simp [Occurs.isOver, hmax]
          | some k =>
              have := hcount k hmax
              simp only [Occurs.isOver, hmax, Option.any_some, decide_eq_false_iff_not]
              omega
        have := hskip m hm hnot n rfl
        rw [this] at hpasses
        cases hpasses
  · exact hnil

/-- With no child left, the members must have reached their minima. -/
theorem InAll.completes_nil (h : w.InAll s root) :
    w.Completes s root [] ↔ (∀ m ∈ (s.group root).members, (s.occurs m).min.toNat ≤ w.count m) ∨
      (∀ m ∈ (s.group root).members, w.count m = 0) ∧ (s.group root).occurs.min = 0 := by
  unfold Completes
  constructor
  · rintro (⟨-, hadmits⟩ | ⟨hzero, -, hmin⟩)
    · exact .inl fun m hm => (hadmits m hm).1
    · exact .inr ⟨hzero, hmin⟩
  · rintro (hmin | ⟨hzero, hmin⟩)
    · exact .inl ⟨by simp, fun m hm => ⟨hmin m hm, h.le_max m hm⟩⟩
    · exact .inr ⟨hzero, rfl, hmin⟩

/-! ## One step after another -/

theorem InAll.closeLeaf_eq (h : w.InAll s root) (hg : s.IsAllOfElements root) (m : Member) :
    w.closeLeaf s m = (some false, w) := by
  rw [closeLeaf, closeItem_all (by rw [h.here, hg.compositor])]

theorem InAll.isGroupOver_eq (h : w.InAll s root) (hg : s.IsAllOfElements root) :
    w.isGroupOver s = false := by
  have hreach : w.reach w.hereMember = 0 := by
    have hcount := h.count_root
    have hceiling := h.ceiling_root
    unfold count at hcount
    rw [reach, hereMember, h.here, hcount, hceiling]
    rfl
  rw [isGroupOver, hreach, h.here, Occurs.isOver, hg.max]
  rfl

theorem InAll.isPassed_eq (h : w.InAll s root) (hg : s.IsAllOfElements root) {m : Member}
    (hm : m ∈ (s.group root).members) :
    w.isPassed s m = (s.occurs m).isOver (w.count m) := by
  rw [isPassed, h.here, hg.compositor, hg.distinct.isGroup_eq_false hm]
  rfl

theorem InAll.isSatisfied_iff (h : w.InAll s root) (hg : s.IsAllOfElements root) (hs : s.Built) :
    w.isSatisfied s = true ↔
      ∀ m ∈ (s.group root).members, (s.occurs m).min.toNat ≤ w.count m := by
  rw [isSatisfied, h.here, hg.unordered_eq hs, List.all_eq_true]
  simp

/-- The next member that may still occur, or none. -/
theorem InAll.nextItem_eq (h : w.InAll s root) (hg : s.IsAllOfElements root) {before : List Member}
    (hmembers : (s.group root).members = before ++ w.here.rest) :
    (∃ passed m rest, w.here.rest = passed ++ m :: rest ∧
        (∀ x ∈ passed, (s.occurs x).isOver (w.count x) = true) ∧
        (s.occurs m).isOver (w.count m) = false ∧
        w.nextItem s = (some m, { w with here := { w.here with rest } })) ∨
      (∀ x ∈ w.here.rest, (s.occurs x).isOver (w.count x) = true) ∧
        w.nextItem s = (none, { w with here := { w.here with rest := [] } }) := by
  have hpassed : ∀ x ∈ w.here.rest, w.isPassed s x = (s.occurs x).isOver (w.count x) := by
    intro x hx
    exact h.isPassed_eq hg (by rw [hmembers]; exact List.mem_append_right _ hx)
  unfold nextItem
  cases hdrop : w.here.rest.dropWhile (w.isPassed s) with
  | nil =>
      refine .inr ⟨?_, rfl⟩
      intro x hx
      rw [← hpassed x hx]
      exact List.dropWhile_eq_nil_iff.1 hdrop x hx
  | cons m rest =>
      have hsplit := List.takeWhile_append_dropWhile (p := w.isPassed s) (l := w.here.rest)
      rw [hdrop] at hsplit
      refine .inl ⟨w.here.rest.takeWhile (w.isPassed s), m, rest, hsplit.symm, ?_, ?_, rfl⟩
      · intro x hx
        rw [← hpassed x (List.takeWhile_subset _ hx)]
        exact List.mem_takeWhile_imp hx
      · have hm : m ∈ w.here.rest := by
          rw [← hsplit]
          exact List.mem_append_right _ (List.mem_cons_self ..)
        have hnot := List.head?_dropWhile_not (w.isPassed s) w.here.rest
        rw [hdrop] at hnot
        rw [← hpassed m hm]
        simpa using hnot

/-- What a walk through an `all` group comes to. -/
def Comes (s : Schema) (root : GroupId) (w : Walk) (ns : List QName) (todo : Nat)
    (r : Except Failure (List Violation) × Walk) : Prop :=
  ∃ violations w', r = (.ok violations, w') ∧ w'.Through s root ns ∧ w'.allTodo s root ≤ todo ∧
    (w.Completes s root ns ↔ violations = [] ∧ w'.Residual s root ns)

/-- A walk that is over with the violations that tell whether the children complete it. -/
theorem Comes.over {todo : Nat} {r : Except Failure (List Violation) × Walk}
    {violations : List Violation} {w' : Walk} (hr : r = (.ok violations, w'))
    (hended : w'.current = none) (hiff : w.Completes s root ns ↔ violations = [] ∧ ns = []) :
    Comes s root w ns todo r := by
  refine ⟨violations, w', hr, .inl hended, ?_, ?_⟩
  · simp [allTodo, hended]
  · simpa [Residual, hended] using hiff

/-- Standing on the next member that may still occur. -/
theorem InAll.place {m : Member} {before rest : List Member} {matched : Bool} (h : w.InAll s root)
    (hunmatched : matched = false → w.isSatisfied s = true ∨
      ∀ x ∈ (s.group root).members, w.count x = 0)
    (hmatched : matched = true → ∃ x ∈ (s.group root).members, 0 < w.count x)
    (hmembers : (s.group root).members = before ++ m :: rest) (hskip : w.Skipped s before ns)
    (hnot : (s.occurs m).isOver (w.count m) = false) :
    OnMember s root { w with here := ⟨w.here.group, rest, matched⟩, current := some m } ns m where
  inAll := ⟨h.here, h.outer, h.count_root, h.ceiling_root, h.le_max, hunmatched, hmatched⟩
  current := rfl
  not_over := hnot
  members := ⟨before, hmembers, hskip⟩

/-- The end of a walk with nothing missing in its members. -/
theorem InAll.finish_satisfied (h : w.InAll s root) (hg : s.IsAllOfElements root)
    (last : Option Member) :
    finish s ⟨{ w with counts := w.counts.set (.group root) 1 }, last, []⟩ =
      ([], { w with counts := w.counts.set (.group root) 1, current := none }) := by
  have hceiling := h.ceiling_root
  have hmin := hg.min_le
  have hmax := hg.max
  simp [finish, hereMember, h.here, reach, count, Occurs.isMissing, Occurs.isExceeded,
    hceiling, hmax]
  omega

/-- The end of a walk with nothing counted for the group. -/
theorem InAll.finish_unsatisfied (h : w.InAll s root) (hg : s.IsAllOfElements root) (hs : s.Built)
    (hno : w.isSatisfied s = false) (last : Option Member) (violations : List Violation) :
    ∃ more, finish s ⟨w, last, violations⟩ = (violations ++ more, { w with current := none }) ∧
      (more = [] ↔ (s.group root).occurs.min = 0) := by
  have hcount := h.count_root
  have hceiling := h.ceiling_root
  have hincomplete : isIncomplete s { w with current := none } last = true := by
    simp only [isIncomplete, h.here, hg.compositor, List.any_eq_true, decide_eq_true_eq]
    by_contra hall
    push Not at hall
    have := (h.isSatisfied_iff hg hs).2 fun m hm => hall m hm
    rw [this] at hno
    cases hno
  have hmin : (s.group root).occurs.min = 0 ↔ (s.group root).occurs.min.toNat = 0 := by
    rw [← UInt32.toNat_inj]
    rfl
  unfold count at hcount
  by_cases hzero : (s.group root).occurs.min.toNat = 0
  · refine ⟨[], ?_, by simp [hmin, hzero]⟩
    simp [finish, hereMember, h.here, reach, count, Occurs.isMissing, Occurs.isExceeded, hg.max,
      hcount, hceiling, hzero]
  · refine ⟨[Walk.violation s { w with current := none } (.group root) (w.count (.group root))], ?_,
      by simp [hmin, hzero]⟩
    simp only [finish, hereMember, h.here, reach, Occurs.isMissing]
    rw [hcount, hceiling, if_pos (by simpa using by omega), hincomplete, if_pos rfl]
    rfl

/-- Where nothing has matched, the walk is over. -/
theorem InAll.comes_unmatched (h : w.InAll s root) (hg : s.IsAllOfElements root) (hs : s.Built)
    (hmatched : w.here.matched = false) (hskip : w.Skipped s (s.group root).members ns)
    (last : Option Member) {todo : Nat} :
    ∃ p, Passage.leaveUnmatched s ⟨w, last, []⟩ = .ended p ∧
      Comes s root w ns todo (settle s (.ended p)) := by
  by_cases hsat : w.isSatisfied s = true
  · refine ⟨⟨{ w with counts := w.counts.set (.group root) 1 }, last, []⟩, ?_, ?_⟩
    · simp [Passage.leaveUnmatched, h.here, hg.compositor, hsat, hereMember, closeGroup_of_root, h.outer]
    · refine Comes.over (by rw [settle, h.finish_satisfied hg]) rfl ?_
      have hmin := (h.isSatisfied_iff hg hs).1 hsat
      constructor
      · intro hcomplete
        exact ⟨rfl, hcomplete.ns_eq_nil hskip⟩
      · rintro ⟨-, rfl⟩
        exact h.completes_nil.2 (.inl hmin)
  · have hno : w.isSatisfied s = false := by simpa using hsat
    have hzero := (h.unmatched hmatched).resolve_left hsat
    obtain ⟨more, hfinish, hmore⟩ := h.finish_unsatisfied hg hs hno last []
    refine ⟨⟨w, last, []⟩, ?_, ?_⟩
    · simp [Passage.leaveUnmatched, hno, closeGroup_of_root, h.outer]
    · refine Comes.over (by rw [settle, hfinish]) rfl ?_
      rw [List.nil_append, hmore]
      constructor
      · intro hcomplete
        have hnil := hcomplete.ns_eq_nil hskip
        subst hnil
        rcases h.completes_nil.1 hcomplete with hmin | ⟨-, hmin⟩
        · exact absurd ((h.isSatisfied_iff hg hs).2 hmin) hsat
        · exact ⟨hmin, rfl⟩
      · rintro ⟨hmin, rfl⟩
        exact h.completes_nil.2 (.inr ⟨hzero, hmin⟩)

/-- Where a member has matched and another has not reached its minimum, the walk is over. -/
theorem InAll.comes_unsatisfied (h : w.InAll s root) (hg : s.IsAllOfElements root) (hs : s.Built)
    (hmatched : w.here.matched = true) (hno : w.isSatisfied s = false)
    (hskip : w.Skipped s (s.group root).members ns) (last : Option Member) {todo : Nat} :
    ∃ p, Passage.leaveAll s ⟨w, last, []⟩ = .ended p ∧
      Comes s root w ns todo (settle s (.ended p)) := by
  have hnever : ¬w.Completes s root ns := by
    intro hcomplete
    have hnil := hcomplete.ns_eq_nil hskip
    subst hnil
    rcases h.completes_nil.1 hcomplete with hmin | ⟨hzero, -⟩
    · rw [(h.isSatisfied_iff hg hs).2 hmin] at hno
      cases hno
    · obtain ⟨m, hm, hpos⟩ := h.matched hmatched
      rw [hzero m hm] at hpos
      exact Nat.lt_irrefl 0 hpos
  obtain ⟨violations, hviolations, hreport⟩ : ∃ violations,
      Passage.leaveAll s ⟨w, last, []⟩ = .ended ⟨w, last, violations⟩ ∧
        ((s.group root).occurs.min = 0 → violations ≠ []) := by
    simp only [Passage.leaveAll, hno, leave?, h.outer, h.here]
    by_cases hmin : (s.group root).occurs.min = 0
    · simp [hmin, Passage.report]
    · simp [hmin]
  obtain ⟨more, hfinish, hmore⟩ := h.finish_unsatisfied hg hs hno last violations
  refine ⟨⟨w, last, violations⟩, hviolations, ?_⟩
  refine Comes.over (by rw [settle, hfinish]) rfl ?_
  constructor
  · intro hcomplete
    exact absurd hcomplete hnever
  · rintro ⟨hnil, -⟩
    rw [List.append_eq_nil_iff, hmore] at hnil
    exact absurd hnil.1 (hreport hnil.2)

/-- Where all members have reached their maximum, the walk is over. -/
theorem InAll.comes_full (h : w.InAll s root) (hg : s.IsAllOfElements root) (hs : s.Built)
    (hsat : w.isSatisfied s = true)
    (hfull : ∀ m ∈ (s.group root).members, (s.occurs m).isOver (w.count m) = true)
    (last : Option Member) {n todo : Nat} :
    ∃ p, Passage.leaveAll s ⟨w, last, []⟩ = .again p ∧
      Comes s root w ns todo (settle s (Passage.run s (n + 1) p)) := by
  have hskip : w.Skipped s (s.group root).members ns := by
    intro m hm hnot
    rw [hfull m hm] at hnot
    cases hnot
  have hany : ((s.group root).members.any fun m => !(s.occurs m).isOver (w.count m)) = false := by
    rw [List.any_eq_false]
    intro m hm
    simp [hfull m hm]
  refine ⟨⟨{ w with counts := w.counts.set (.group root) 1 }, last, []⟩, ?_, ?_⟩
  · have hover : (s.group root).occurs.isOver 1 = true := by simp [Occurs.isOver, hg.max]
    simp only [Passage.leaveAll, hsat, h.here, hany, hereMember, hover, Bool.not_true,
      Bool.false_eq_true, if_false, if_true]
  · have hstep : Passage.step s ⟨{ w with counts := w.counts.set (.group root) 1 }, last, []⟩ =
        .ended ⟨{ w with counts := w.counts.set (.group root) 1 }, last, []⟩ := by
      have hover : isGroupOver s { w with counts := w.counts.set (.group root) 1 } = true := by
        simp [isGroupOver, reach, hereMember, h.here, h.ceiling_root, hg.max, Occurs.isOver]
      have hclose : closeGroup s { w with counts := w.counts.set (.group root) 1 } =
          (none, { w with counts := w.counts.set (.group root) 1 }) := closeGroup_of_root h.outer
      rw [Passage.step_of_over hover, hclose]
      rfl
    rw [Passage.run_ended hstep]
    refine Comes.over (by rw [settle, h.finish_satisfied hg]) rfl ?_
    constructor
    · intro hcomplete
      exact ⟨rfl, hcomplete.ns_eq_nil hskip⟩
    · rintro ⟨-, rfl⟩
      exact h.completes_nil.2 (.inl ((h.isSatisfied_iff hg hs).1 hsat))

theorem InAll.mono (h : w.InAll s root) {rest : List Member} :
    InAll s root { w with here := { w.here with rest } } :=
  ⟨h.here, h.outer, h.count_root, h.ceiling_root, h.le_max, h.unmatched, h.matched⟩

/-- From a place between the members of the group the walk comes to the next member, or to its
end. -/
theorem InAll.comes_next (h : w.InAll s root) (hg : s.IsAllOfElements root) {before : List Member}
    (hmembers : (s.group root).members = before ++ w.here.rest) (hskip : w.Skipped s before ns)
    {m : Member} {w' : Walk} (hnext : w.nextItem s = (some m, w')) (last : Option Member)
    {n : Nat} : Comes s root w ns
      (w.here.rest.length + if w.here.matched then (s.group root).members.length + 1 else 0)
      (settle s (Passage.run s (n + 1) ⟨w, last, []⟩)) := by
  rcases h.nextItem_eq hg hmembers with ⟨passed, m', rest, hrest, hover, hnot, heq⟩ | ⟨-, heq⟩
  · obtain ⟨rfl, rfl⟩ : m' = m ∧ { w with here := { w.here with rest } } = w' := by
      rw [heq] at hnext
      simpa using hnext
    have hsplit : (s.group root).members = (before ++ passed) ++ m' :: rest := by
      rw [hmembers, hrest, List.append_assoc]
    have hin : m' ∈ (s.group root).members := by
      rw [hsplit]
      simp
    have hskip' : w.Skipped s (before ++ passed) ns := by
      intro x hx hnotx
      rcases List.mem_append.1 hx with hx | hx
      · exact hskip x hx hnotx
      · rw [hover x hx] at hnotx
        cases hnotx
    have hstep : Passage.step s ⟨w, last, []⟩ = .placed
        ⟨{ w with here := ⟨w.here.group, rest, w.here.matched⟩, current := some m' },
          some m', []⟩ := by
      rw [Passage.step_of_leaf (h.isGroupOver_eq hg) heq (hg.distinct.isGroup_eq_false hin)]
      simp [Passage.place, h.here, hg.compositor]
    rw [Passage.run_placed hstep]
    refine ⟨_, _, rfl, .inr ⟨m', h.place h.unmatched h.matched hsplit hskip' hnot⟩, ?_, ?_⟩
    · simp only [allTodo, hrest, reduceCtorEq, if_false, List.length_append, List.length_cons]
      omega
    · simp [Residual, Completes, count]
  · rw [heq] at hnext
    cases hnext

theorem InAll.comes (h : w.InAll s root) (hg : s.IsAllOfElements root) (hs : s.Built)
    {before : List Member} (hmembers : (s.group root).members = before ++ w.here.rest)
    (hskip : w.Skipped s before ns) (last : Option Member) {n : Nat} : Comes s root w ns
      (w.here.rest.length + if w.here.matched then (s.group root).members.length + 1 else 0)
      (settle s (Passage.run s (n + 3) ⟨w, last, []⟩)) := by
  rcases h.nextItem_eq hg hmembers with ⟨_, m, _, -, -, -, heq⟩ | ⟨hover, heq⟩
  · exact h.comes_next hg hmembers hskip heq last
  -- no member is left in this pass
  have hmono : InAll s root { w with here := { w.here with rest := [] } } := h.mono
  have hall : w.Skipped s (s.group root).members ns := by
    intro x hx hnot
    rw [hmembers] at hx
    rcases List.mem_append.1 hx with hx | hx
    · exact hskip x hx hnot
    · rw [hover x hx] at hnot
      cases hnot
  have hstep : Passage.step s ⟨w, last, []⟩ =
      Passage.leaveEnd s ⟨{ w with here := { w.here with rest := [] } }, none, []⟩ :=
    Passage.step_of_none (h.isGroupOver_eq hg) heq
  cases hmatched : w.here.matched with
  | false =>
      obtain ⟨p, hp, hcomes⟩ := hmono.comes_unmatched hg hs hmatched hall none
      have hend : Passage.step s ⟨w, last, []⟩ = .ended p := by
        rw [hstep, Passage.leaveEnd]
        simpa [hmatched] using hp
      rw [Passage.run_ended hend]
      exact hcomes
  | true =>
      have hleave : Passage.step s ⟨w, last, []⟩ =
          Passage.leaveAll s ⟨{ w with here := { w.here with rest := [] } }, none, []⟩ := by
        rw [hstep, Passage.leaveEnd]
        simp [hmatched, h.here, hg.compositor]
      cases hsat : w.isSatisfied s with
      | false =>
          obtain ⟨p, hp, hcomes⟩ := hmono.comes_unsatisfied hg hs hmatched hsat hall none
          rw [Passage.run_ended (hleave.trans hp)]
          exact hcomes
      | true =>
          by_cases hfull : ∀ m ∈ (s.group root).members, (s.occurs m).isOver (w.count m) = true
          · obtain ⟨p, hp, hcomes⟩ := hmono.comes_full hg hs hsat hfull none
            rw [Passage.run_again (hleave.trans hp)]
            exact hcomes
          · -- a second pass finds a member that may still occur
            obtain ⟨m, hm, hnot⟩ : ∃ m ∈ (s.group root).members,
                (s.occurs m).isOver (w.count m) = false := by
              by_contra hno
              push Not at hno
              exact hfull fun m hm => by simpa using hno m hm
            have hany : ((s.group root).members.any
                fun m => !(s.occurs m).isOver (w.count m)) = true :=
              List.any_eq_true.2 ⟨m, hm, by simp [hnot]⟩
            have hmax : (s.group root).occurs.isEmpty = false := by simp [Occurs.isEmpty, hg.max]
            have hitems : items s w.version w.here.group = (s.group root).members := by
              simp only [items, h.here, hg.compositor, hg.unordered_eq hs, hmax]
              rfl
            have hagain : Passage.step s ⟨w, last, []⟩ =
                .again ⟨{ w with here := ⟨w.here.group, (s.group root).members, false⟩ },
                  none, []⟩ := by
              rw [hleave, Passage.leaveAll]
              have hsat' : isSatisfied s { w with here := { w.here with rest := [] } } = true :=
                hsat
              have hany' : ((s.group w.here.group).members.any fun m => !(s.occurs m).isOver
                  (count { w with here := { w.here with rest := [] } } m)) = true := by
                rw [h.here]
                exact hany
              simp only [hsat', hany', restartGroup, hitems, Bool.not_true, Bool.false_eq_true,
                if_false, if_true]
            have hagainAll : InAll s root
                { w with here := ⟨w.here.group, (s.group root).members, false⟩ } :=
              ⟨h.here, h.outer, h.count_root, h.ceiling_root, h.le_max, fun _ => .inl hsat, by simp⟩
            rw [Passage.run_again hagain]
            have hstart : (s.group root).members = [] ++ (s.group root).members := rfl
            rcases hagainAll.nextItem_eq hg hstart with ⟨_, m', _, -, -, -, heq'⟩ | ⟨hover', -⟩
            · obtain ⟨violations, w', hr, hthrough, htodo, hiff⟩ :=
                hagainAll.comes_next hg hstart (skipped_nil _ ns) heq' none (n := n + 1)
              refine ⟨violations, w', hr, hthrough, ?_, hiff⟩
              simp only [Bool.false_eq_true, if_false, if_true] at htodo ⊢
              omega
            · have := hover' m hm
              simp only [count] at this hnot
              rw [hnot] at this
              cases this

/-! ## Children and their end -/

theorem items_eq (hg : s.IsAllOfElements root) (hs : s.Built) (v : Version) :
    items s v root = (s.group root).members := by
  have hmax : (s.group root).occurs.isEmpty = false := by simp [Occurs.isEmpty, hg.max]
  simp only [items, hg.compositor, hg.unordered_eq hs, hmax]
  rfl

/-- A child that a member matches is one child less to come. -/
theorem completes_take {m : Member} {n : QName} (hg : s.IsAllOfElements root)
    (hm : m ∈ (s.group root).members) (hpasses : s.passes m n = true) :
    w.Completes s root (n :: ns) ↔ (w.take m).Completes s root ns := by
  have hcount : ∀ x ∈ (s.group root).members,
      w.count x + (n :: ns).countP (s.passes x) =
        (w.take m).count x + ns.countP (s.passes x) := by
    intro x hx
    by_cases hxm : x = m
    · subst hxm
      rw [List.countP_cons_of_pos hpasses]
      simp [take, count]
      omega
    · have hno : ¬s.passes x n = true := fun hp => hxm (hg.distinct.eq_of_passes hx hm hp hpasses)
      rw [List.countP_cons_of_neg hno]
      simp [take, count, hxm]
  unfold Completes
  constructor
  · rintro (⟨hnames, hadmits⟩ | ⟨-, hnil, -⟩)
    · refine .inl ⟨fun x hx => hnames x (List.mem_cons_of_mem _ hx), ?_⟩
      intro x hx
      rw [← hcount x hx]
      exact hadmits x hx
    · cases hnil
  · rintro (⟨hnames, hadmits⟩ | ⟨hzero, -, -⟩)
    · refine .inl ⟨?_, ?_⟩
      · intro x hx
        rcases List.mem_cons.1 hx with rfl | hx
        · exact ⟨m, hm, hpasses⟩
        · exact hnames x hx
      · intro x hx
        rw [hcount x hx]
        exact hadmits x hx
    · have := hzero m hm
      simp [take, count] at this

/-- The walk after a child stands before the first member again. -/
theorem OnMember.inAll_take {m : Member} {ns' : List QName} (h : w.OnMember s root ns' m)
    (hg : s.IsAllOfElements root) :
    InAll s root { w.take m with here := ⟨root, (s.group root).members, true⟩ } := by
  obtain ⟨before, hmembers, -⟩ := h.members
  have hm : m ∈ (s.group root).members := by simp [hmembers]
  have hroot : Member.group root ≠ m := by
    rintro rfl
    have := hg.distinct.isGroup_eq_false hm
    simp [Member.isGroup] at this
  have hcount := h.inAll.count_root
  unfold count at hcount
  refine ⟨rfl, h.inAll.outer, ?_, h.inAll.ceiling_root, ?_, by simp, fun _ => ⟨m, hm, ?_⟩⟩
  · simp [take, count, hroot, hcount]
  · intro x hx k hk
    have hle := h.inAll.le_max x hx k hk
    have hnot := h.not_over
    unfold count at hle hnot
    simp only [take, count, Tally.count_add]
    split
    · rename_i hxm
      subst hxm
      simp only [Occurs.isOver, Option.mem_def.1 hk, Option.any_some,
        decide_eq_false_iff_not] at hnot
      omega
    · exact hle
  · simp [take, count]

theorem recognizes_all (hg : s.IsAllOfElements root) (hs : s.Built) :
    Recognizes s (fun w ns => w.Through s root ns) (Residual s root) (allTodo s root) where
  ended := by
    intro w ns _ hended
    simp [Residual, hended]
  take := by
    rintro w m n ns (hended | ⟨m', h⟩) hcurrent hpasses
    · rw [hended] at hcurrent
      cases hcurrent
    obtain rfl : m' = m := Option.some.inj (h.current.symm.trans hcurrent)
    obtain ⟨before, hmembers, -⟩ := h.members
    have hm : m' ∈ (s.group root).members := by simp [hmembers]
    have hin := h.inAll_take hg
    have hadvance : w.advance s true =
        ({ w.take m' with here := ⟨root, (s.group root).members, true⟩ } : Walk).moveOn s m' := by
      have hstay : (w.take m').staysOn s m' = false := by
        simp [staysOn, Walk.take, h.inAll.here, hg.compositor]
      have hrewind : (w.take m').rewind s =
          { w.take m' with here := ⟨root, (s.group root).members, true⟩ } := by
        simp [rewind, Walk.take, h.inAll.here, items_eq hg hs]
      have hall : (s.group (w.take m').here.group).compositor = .all := by
        simp [Walk.take, h.inAll.here, hg.compositor]
      simp only [advance, hcurrent, hstay, hall, hrewind, if_true, Bool.false_eq_true, if_false]
    obtain ⟨k, hk⟩ := Nat.exists_eq_add_of_le' s.sixteen_le_stepBudget
    have hstart : (s.group root).members = [] ++ (s.group root).members := rfl
    obtain ⟨violations, w', hr, hthrough, -, hiff⟩ :=
      hin.comes hg hs hstart (skipped_nil _ ns) none (n := k + 13)
    refine ⟨violations, w', ?_, hthrough, ?_⟩
    · rw [hadvance, moveOn_of_some (hin.closeLeaf_eq hg m'), hk]
      exact hr
    · have hres : w.Residual s root (n :: ns) ↔ w.Completes s root (n :: ns) := by
        simp [Residual, hcurrent]
      rw [hres, completes_take hg hm hpasses]
      exact hiff
  pass := by
    rintro w m ns (hended | ⟨m', h⟩) hcurrent hpasses
    · rw [hended] at hcurrent
      cases hcurrent
    obtain rfl : m' = m := Option.some.inj (h.current.symm.trans hcurrent)
    obtain ⟨before, hmembers, hskip⟩ := h.members
    have hmembers' : (s.group root).members = (before ++ [m']) ++ w.here.rest := by
      rw [hmembers, List.append_assoc]
      rfl
    have hskip' : w.Skipped s (before ++ [m']) ns := by
      intro x hx hnot
      rcases List.mem_append.1 hx with hx | hx
      · exact hskip x hx hnot
      · obtain rfl : x = m' := by simpa using hx
        exact hpasses
    obtain ⟨k, hk⟩ := Nat.exists_eq_add_of_le' s.sixteen_le_stepBudget
    obtain ⟨violations, w', hr, hthrough, htodo, hiff⟩ :=
      h.inAll.comes hg hs hmembers' hskip' none (n := k + 13)
    refine ⟨violations, w', ?_, fun _ => hthrough, hthrough.nil, ?_, ?_⟩
    · simp only [advance, hcurrent, Bool.false_eq_true, if_false]
      rw [moveOn_of_some (h.inAll.closeLeaf_eq hg m'), hk]
      exact hr
    · have hw : w.allTodo s root = 1 + (w.here.rest.length +
          if w.here.matched then (s.group root).members.length + 1 else 0) := by
        simp [allTodo, hcurrent, Nat.add_assoc]
      omega
    · have hres : w.Residual s root ns ↔ w.Completes s root ns := by simp [Residual, hcurrent]
      rw [hres]
      exact hiff
  budget := by
    rintro w ns (hended | ⟨m, h⟩)
    · simp [allTodo, hended]
    · obtain ⟨before, hmembers, -⟩ := h.members
      have hrest : w.here.rest.length < (s.group root).members.length := by
        simp [hmembers]
        omega
      have hlength := hs.forest.length_members_le root
      have hbudget := s.mul_le_stepBudget (i := 1) (j := 4 * (s.particles.length + 2))
        (by omega) (by omega)
      have htodo : w.allTodo s root ≤ 1 + w.here.rest.length + ((s.group root).members.length + 1) := by
        simp only [allTodo]
        split
        · omega
        · split <;> omega
      omega

/-- The walk at the start stands on the first member that may occur. -/
theorem start_all (hg : s.IsAllOfElements root) (hs : s.Built) (ns : List QName) :
    ∃ w, Walk.start s root s.version = .ok w ∧ w.Through s root ns ∧
      (w.Residual s root ns ↔ Walk.Completes s root w ns) ∧
      ∀ m ∈ (s.group root).members, w.count m = 0 := by
  have hroot : InAll s root
      ⟨root, s.version, ⟨root, (s.group root).members, false⟩, [], Tally.zero, Tally.zero, none⟩ :=
    ⟨rfl, rfl, rfl, rfl, by simp [count], fun _ => .inr (by simp [count]), by simp⟩
  obtain ⟨k, hk⟩ := Nat.exists_eq_add_of_le' s.sixteen_le_stepBudget
  have hstart : (s.group root).members = [] ++ (s.group root).members := rfl
  unfold Walk.start restart clear
  simp only [items_eq hg hs, hk]
  rcases hroot.nextItem_eq hg hstart with ⟨passed, m, rest, hrest, hover, hnot, heq⟩ | ⟨hover, heq⟩
  · have hsplit : (s.group root).members = passed ++ m :: rest := hrest
    have hm : m ∈ (s.group root).members := by simp [hsplit]
    have hseek : seekFirst s (k + 15 + 1)
        ⟨root, s.version, ⟨root, (s.group root).members, false⟩, [], Tally.zero, Tally.zero, none⟩ =
        (.ok (), ⟨root, s.version, ⟨root, rest, false⟩, [], Tally.zero, Tally.zero, some m⟩) := by
      rw [seekFirst, heq]
      have := hg.distinct.isGroup_eq_false hm
      cases m with
      | group g => cases this
      | element e => rfl
      | wildcard x => rfl
    have hskip : Skipped s
        ⟨root, s.version, ⟨root, (s.group root).members, false⟩, [], Tally.zero, Tally.zero, none⟩
        passed ns := by
      intro x hx hnotx
      rw [hover x hx] at hnotx
      cases hnotx
    refine ⟨_, by rw [hseek], .inr ⟨m, ?_⟩, by simp [Residual], by simp [count]⟩
    exact hroot.place hroot.unmatched hroot.matched hsplit hskip hnot
  · have hseek : seekFirst s (k + 15 + 1)
        ⟨root, s.version, ⟨root, (s.group root).members, false⟩, [], Tally.zero, Tally.zero, none⟩ =
        (.ok (), ⟨root, s.version, ⟨root, [], false⟩, [], Tally.zero, Tally.zero, none⟩) := by
      rw [seekFirst, heq]
      rfl
    have hskip : Skipped s
        ⟨root, s.version, ⟨root, (s.group root).members, false⟩, [], Tally.zero, Tally.zero, none⟩
        (s.group root).members ns := by
      intro x hx hnotx
      rw [hover x hx] at hnotx
      cases hnotx
    refine ⟨_, by rw [hseek], .inl rfl, ?_, by simp [count]⟩
    simp only [Residual, if_true]
    constructor
    · rintro rfl
      refine hroot.completes_nil.2 (.inl fun m hm => ?_)
      -- a member that may not occur needs not occur
      have hzero := hover m hm
      cases hmax : (s.occurs m).max with
      | none => simp [Occurs.isOver, hmax] at hzero
      | some n =>
          have hle := hs.min_le_max m n hmax
          simp only [Occurs.isOver, hmax, Option.any_some, decide_eq_true_eq] at hzero
          exact Nat.le_trans hle hzero
    · intro hcomplete
      exact Completes.ns_eq_nil (w := ⟨root, s.version, ⟨root, (s.group root).members, false⟩, [],
        Tally.zero, Tally.zero, none⟩) hcomplete hskip

end Walk

/-- Children without an issue in an `all` group: each of them is one of the members, and of each
member there are as many as its bounds admit, in whatever order. -/
theorem Schema.issues_all_iff {s : Schema} {root : GroupId} (hs : s.Built)
    (hg : s.IsAllOfElements root) (names : List QName) :
    ∃ issues, s.issues root names = .ok issues ∧ (issues = [] ↔
      (∀ n ∈ names, ∃ m ∈ (s.group root).members, s.passes m n = true) ∧
          (∀ m ∈ (s.group root).members, (s.occurs m).Admits (names.countP (s.passes m))) ∨
        names = [] ∧ (s.group root).occurs.min = 0) := by
  obtain ⟨w, hstart, hthrough, hres, hzero⟩ := Walk.start_all hg hs names
  obtain ⟨issues, hissues, hiff⟩ :=
    Schema.issues_iff_of_recognizes (Walk.recognizes_all hg hs) hstart hthrough
  refine ⟨issues, hissues, ?_⟩
  rw [hiff, hres]
  unfold Walk.Completes
  constructor
  · rintro (⟨hnames, hadmits⟩ | ⟨-, hnil, hmin⟩)
    · refine .inl ⟨hnames, fun m hm => ?_⟩
      have := hadmits m hm
      rwa [hzero m hm, Nat.zero_add] at this
    · exact .inr ⟨hnil, hmin⟩
  · rintro (⟨hnames, hadmits⟩ | ⟨hnil, hmin⟩)
    · refine .inl ⟨hnames, fun m hm => ?_⟩
      rw [hzero m hm, Nat.zero_add]
      exact hadmits m hm
    · exact .inr ⟨hzero, hnil, hmin⟩

/-- Which children an `all` group admits, and that their order does not matter. -/
theorem Schema.all_group_exact {s : Schema} {root : GroupId} (hs : s.Built)
    (hg : s.IsAllOfElements root) :
    (∀ names : List QName, ∃ issues, s.issues root names = .ok issues ∧ (issues = [] ↔
      (∀ n ∈ names, ∃ m ∈ (s.group root).members, s.passes m n = true) ∧
          (∀ m ∈ (s.group root).members, (s.occurs m).Admits (names.countP (s.passes m))) ∨
        names = [] ∧ (s.group root).occurs.min = 0)) ∧
    ∀ names names' : List QName, names.Perm names' → s.issues root names = .ok [] →
      s.issues root names' = .ok [] := by
  refine ⟨s.issues_all_iff hs hg, ?_⟩
  intro names names' hperm hnone
  obtain ⟨issues, hissues, hiff⟩ := s.issues_all_iff hs hg names
  obtain ⟨issues', hissues', hiff'⟩ := s.issues_all_iff hs hg names'
  rw [hnone] at hissues
  obtain rfl : [] = issues := Except.ok.inj hissues
  have hadmitted := hiff.1 rfl
  have hcount : ∀ m, names'.countP (s.passes m) = names.countP (s.passes m) :=
    fun m => (hperm.countP_eq _).symm
  have hnames : ∀ n ∈ names', n ∈ names := fun n hn => hperm.mem_iff.2 hn
  have hnil : issues' = [] := by
    apply hiff'.2
    rcases hadmitted with ⟨hall, hadmits⟩ | ⟨rfl, hmin⟩
    · refine .inl ⟨fun n hn => hall n (hnames n hn), fun m hm => ?_⟩
      rw [hcount]
      exact hadmits m hm
    · exact .inr ⟨List.nil_perm.1 hperm, hmin⟩
  rw [hissues', hnil]

/-- One `a` and at most two `b`, in any order. -/
def allSample : Components :=
  (Components.withElements .v11 [("a", .once), ("b", ⟨0, some 2⟩)]).withGroup .all .optional
    [.element ⟨0⟩, .element ⟨1⟩]

theorem all_group_exact_sample :
    (∃ issues, allSample.schema.issues ⟨0⟩ [.plain "b", .plain "a"] = .ok issues ∧ issues = []) ∧
      allSample.schema.issues ⟨0⟩ [.plain "a", .plain "b"] = .ok [] := by
  have hs : allSample.schema.Built :=
    ((Components.assembled_withElements ..).withGroup ..).built rfl
  have hg : allSample.schema.IsAllOfElements ⟨0⟩ :=
    ⟨rfl, by decide, rfl, [⟨0⟩, ⟨1⟩], rfl, by decide +kernel⟩
  obtain ⟨hiff, hperm⟩ := Schema.all_group_exact hs hg
  obtain ⟨issues, hissues, hadmitted⟩ := hiff [.plain "b", .plain "a"]
  have hnone : issues = [] := hadmitted.2 (.inl (by decide +kernel))
  subst hnone
  exact ⟨⟨[], hissues, rfl⟩, hperm _ _ (List.Perm.swap ..) hissues⟩

end Conform
