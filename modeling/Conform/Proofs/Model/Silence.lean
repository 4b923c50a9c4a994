import Conform.Proofs.Model.Acceptance
import Conform.Proofs.Model.Childless
import Conform.Proofs.Model.Placement
/-!
# What is reported without children

A walk that meets no child comes from leaf to leaf to its end, unless it counts repetitions of a
group in which nothing has to occur. It reports what a root sequence misses, and in the end what it
has counted too little of. So nothing is reported of a group that can be empty as the facts about it
say, where the counts tell so.
-/

namespace Conform

/-! ## What is reported -/

/-- In version 1.1, an `all` group inside a group has a leaf that must occur. -/
def Schema.Waits (s : Schema) (root : GroupId) : Prop :=
  s.version = .v11 → ∀ g, s.Visited root g → g ≠ root → (s.group g).compositor = .all →
    (s.group g).occurs.max ≠ some 0 → ∃ m ∈ s.leaves g, (s.occurs m).min ≠ 0

/-- A group of which a walk reports nothing that has stood on a leaf and has met no child. -/
structure Schema.AcceptsNone (s : Schema) (root : GroupId) : Prop where
  isEmptiable : s.isEmptiable (.group root) = true
  choice : (s.group root).compositor = .choice → (s.group root).occurs.min = 0
  all : (s.group root).compositor = .all → (s.group root).occurs.min = 0 ∨
    (∀ m ∈ s.unordered s.version root, (s.occurs m).min = 0) ∧
      (s.group root).occurs.min.toNat ≤ 1 ∨
    ∀ m ∈ (s.group root).members, (s.occurs m).min = 0

/-- A group that a walk without children judges right if it can be empty. -/
structure Schema.Conclusive (s : Schema) (root : GroupId) : Prop where
  waits : s.Waits root
  /-- A choice that must occur and has leaves has no member that can be empty. -/
  choice : (s.group root).compositor = .choice → (s.group root).occurs.min ≠ 0 →
    s.leaves root ≠ [] → s.isHollow root = false
  /-- In version 1.1, an `all` group that must occur and can be empty all the same has no member
  that must occur by its bounds, or must occur once and has no leaf that must occur. -/
  all : s.version = .v11 → (s.group root).compositor = .all → (s.group root).occurs.min ≠ 0 →
    (∃ m ∈ s.leaves root, (s.occurs m).max ≠ some 0) → s.isHollow root = true →
      (∀ m ∈ (s.group root).members, (s.occurs m).min = 0) ∨
        (s.group root).occurs.min = 1 ∧ ∀ m ∈ s.leaves root, (s.occurs m).min = 0

namespace Walk

variable {s : Schema} {root g : GroupId} {m : Member} {outer : List Frame} {w : Walk}
  {before violations : List Violation}

/-! ## The end -/

/-- An `all` group is complete of which no member must occur. -/
theorem isIncomplete_all (hall : (s.group w.here.group).compositor = .all)
    (hmembers : ∀ m ∈ (s.group w.here.group).members, (s.occurs m).min = 0) (last : Option Member) :
    w.isIncomplete s last = false := by
  simp only [isIncomplete, hall, List.any_eq_false, decide_eq_true_eq, not_lt]
  intro x hx
  rw [hmembers x hx]
  exact Nat.zero_le _

/-- A root `all` group has occurred once if none of its leaves must occur. -/
theorem finish_satisfied (hmax : (s.group w.here.group).occurs.max ≠ some 0)
    (ha : s.AcceptsNone w.here.group) (hall : (s.group w.here.group).compositor = .all) :
    (finish s ⟨{ w with counts := w.counts.set w.hereMember 1 }, none, violations⟩).1 =
      violations := by
  let once : Walk := { w with counts := w.counts.set w.hereMember 1 }
  have hone : once.count once.hereMember = 1 := by simp [once, count, hereMember]
  have hreach : 1 ≤ once.reach once.hereMember := hone.symm.trans_le (Nat.le_max_left ..)
  have hcomplete : (s.group w.here.group).occurs.min.toNat ≤ once.reach once.hereMember ∨
      once.isIncomplete s none = false := by
    rcases ha.all hall with hmin | ⟨-, hmin⟩ | hmembers
    · exact .inl (by rw [hmin]; exact Nat.zero_le _)
    · exact .inl (hmin.trans hreach)
    · exact .inr (isIncomplete_all (w := once) hall hmembers none)
  exact congrArg Prod.fst (finish_of_complete (w := once) none violations hcomplete fun n hn =>
    hone.trans_le (Occurs.max_pos hmax hn))

/-- Nothing has occurred in the root group. -/
theorem finish_unsatisfied (h : w.Childless s root) (ha : s.AcceptsNone w.here.group)
    (hno : (s.group w.here.group).compositor = .all → w.isSatisfied s = false) :
    (finish s ⟨w, none, violations⟩).1 = violations := by
  have hzero : (s.group w.here.group).occurs.min = 0 →
      (s.group w.here.group).occurs.min.toNat ≤ w.reach w.hereMember := fun hmin => by
    rw [hmin]
    exact Nat.zero_le _
  refine congrArg Prod.fst
    (finish_of_complete none violations ?_ fun n _ => h.count_le w.hereMember n.toNat)
  cases hcomp : (s.group w.here.group).compositor with
  | sequence => exact .inr (by simp [isIncomplete, hcomp])
  | choice => exact .inl (hzero (ha.choice hcomp))
  | all =>
      rcases ha.all hcomp with hmin | ⟨hleaves, -⟩ | hmembers
      · exact .inl (hzero hmin)
      · have hyes : w.isSatisfied s = true := by
          simp only [isSatisfied, h.version, List.all_eq_true, decide_eq_true_eq]
          intro x hx
          rw [hleaves x hx]
          exact Nat.zero_le _
        cases hyes.symm.trans (hno hcomp)
      · exact .inr (isIncomplete_all hcomp hmembers none)

/-- The walk comes to the end of the root group. -/
theorem finish_root (hmax : (s.group root).occurs.max ≠ some 0) (h : w.Childless s root)
    (houter : w.outer = []) (ha : s.AcceptsNone root) :
    (finish s ⟨if (s.group w.here.group).compositor = .all && w.isSatisfied s then
      { w with counts := w.counts.set w.hereMember 1 } else w, none, violations⟩).1 =
        violations := by
  obtain rfl := h.eq_root houter
  split
  · rename_i hsatisfied
    rw [Bool.and_eq_true, decide_eq_true_eq] at hsatisfied
    exact finish_satisfied hmax ha hsatisfied.1
  · rename_i hno
    exact finish_unsatisfied h ha fun hall => by simpa [hall] using hno

/-- A root group ends that need not occur. -/
theorem finish_short (h : w.Childless s root) (houter : w.outer = [])
    (hmin : (s.group root).occurs.min = 0) (last : Option Member) :
    (finish s ⟨w, last, violations⟩).1 = violations := by
  obtain rfl := h.eq_root houter
  have hle : (s.group w.here.group).occurs.min.toNat ≤ w.reach w.hereMember := by
    rw [hmin]
    exact Nat.zero_le _
  exact congrArg Prod.fst
    (finish_of_complete last violations (.inl hle) fun n _ => h.count_le w.hereMember n.toNat)

/-! ## On the way to a leaf -/

/-- In the groups around there is no more to be gone through. -/
theorem toSeek_le_of_suffix {w' : Walk} (h : w'.here :: w'.outer <:+ w.here :: w.outer) :
    w'.toSeek s ≤ w.toSeek s := by
  obtain ⟨before, heq⟩ := h
  rw [toSeek, toSeek, ← heq, List.map_append, List.sum_append]
  exact Nat.le_add_left ..

/-- A group that is left is not gone through any more. -/
theorem toSeek_lt_of_suffix {w' : Walk} (h : w'.here :: w'.outer <:+ w.outer) :
    w'.toSeek s < w.toSeek s := by
  obtain ⟨before, heq⟩ := h
  simp only [toSeek, ← heq, List.map_cons, List.sum_cons, List.map_append, List.sum_append]
  omega

/-- Members that the walk has come past take away what is in them. -/
theorem toSeek_skip {passed rest : List Member} (hrest : w.here.rest = passed ++ m :: rest) :
    toSeek s { w with here := { w.here with rest } } + 2 * s.bulk m ≤ w.toSeek s := by
  have hpass : passing s (m :: rest) ≤ passing s w.here.rest := passing_suffix ⟨passed, hrest.symm⟩
  simp only [passing, List.map_cons, List.sum_cons] at hpass
  simp only [toSeek, passing, List.map_cons, List.sum_cons]
  omega

theorem toSeek_skip_lt {passed rest : List Member} (hrest : w.here.rest = passed ++ m :: rest) :
    toSeek s { w with here := { w.here with rest } } < w.toSeek s := by
  have hbulk := s.bulk_pos m
  have hless := toSeek_skip (s := s) hrest
  omega

/-- What is in a group is less than the group. -/
theorem toSeek_entering (hs : s.Built) {passed rest : List Member}
    (hrest : w.here.rest = passed ++ .group g :: rest) :
    (w.entering s g rest).toSeek s < w.toSeek s := by
  have hless := toSeek_skip (s := s) hrest
  have hroom := passing_items_lt hs w.version g
  simp only [toSeek, entering, List.map_cons, List.sum_cons] at hless ⊢
  omega

/-- A walk that has met no child stands on a leaf. -/
structure StandsAt (s : Schema) (root : GroupId) (w : Walk) (m : Member) : Prop where
  current : w.current = some m
  isLeaf : m.isGroup = false
  childless : w.Childless s root
  rest : m :: w.here.rest <:+ items s s.version w.here.group
  live : (s.group w.here.group).compositor = .all → (s.occurs m).max ≠ some 0

/-- What a walk without children comes to by a step. It has less before it than a bound, and has
reported nothing if it is to accept the group. -/
inductive Drifts (s : Schema) (root : GroupId) (before : List Violation) (bound : Nat) : Move → Prop
  | again {p : Passage} : p.walk.Childless s root → p.walk.toSeek s < bound →
      (s.AcceptsNone root → before ++ p.violations = []) → Drifts s root before bound (.again p)
  | placed {p : Passage} {m : Member} : p.walk.StandsAt s root m → p.walk.toSeek s < bound →
      (s.AcceptsNone root → before ++ p.violations = []) → Drifts s root before bound (.placed p)
  | ended {p : Passage} : (s.AcceptsNone root → before ++ (finish s p).1 = []) →
      Drifts s root before bound (.ended p)

/-- In a nested `all` group a leaf is missing. -/
theorem Childless.not_isSatisfied (h : w.Childless s root) (hs : s.Built) (hwaits : s.Waits root)
    (houter : w.outer ≠ []) (hall : (s.group w.here.group).compositor = .all)
    (hmax : (s.group w.here.group).occurs.max ≠ some 0) : w.isSatisfied s = false := by
  cases hv : s.version with
  | v10 =>
      have hamid := h.amid
      generalize w.outer = outer at hamid houter
      cases hamid with
      | root => exact absurd rfl houter
      | nested hamid hne hrest =>
          have hmem := Amid.mem_outer (.nested hamid hne hrest)
          exact absurd hall (hs.compositor_ne_all hv hmem)
  | v11 =>
      obtain ⟨m, hm, hmin⟩ := hwaits hv _ h.amid.visited (h.amid.ne_root hs houter) hall hmax
      by_contra hno
      rw [Bool.not_eq_false, isSatisfied, List.all_eq_true, h.version, hv] at hno
      have hle := hno m hm
      rw [decide_eq_true_eq, count, h.count_eq_zero, Nat.le_zero] at hle
      exact hmin (UInt32.toNat_inj.1 hle)

theorem Drifts.mono {bound bound' : Nat} {move : Move} (h : Drifts s root before bound move)
    (hle : bound ≤ bound') : Drifts s root before bound' move := by
  cases h with
  | again hw hlt hquiet => exact .again hw (hlt.trans_le hle) hquiet
  | placed hw hlt hquiet => exact .placed hw (hlt.trans_le hle) hquiet
  | ended hend => exact .ended hend

/-- A leaf that is the next member is stood on. -/
theorem drifts_place (h : w.Childless s root) {passed rest : List Member}
    (hrest : w.here.rest = passed ++ m :: rest) (hm : w.isPassed s m = false)
    (hleaf : m.isGroup = false) {last : Option Member}
    (hquiet : s.AcceptsNone root → before ++ violations = []) :
    Drifts s root before (w.toSeek s)
      (Passage.place s ⟨{ w with here := { w.here with rest } }, last, violations⟩ m) := by
  have hsuffix : m :: rest <:+ w.here.rest := ⟨passed, hrest.symm⟩
  have hskip := h.skip rest ((List.suffix_cons m rest).trans hsuffix)
  have hitems := hsuffix.trans h.rest
  have hlive := Childless.max_ne_zero_of_isPassed (w := w) hm
  have hzero : ∀ x, (w.counts.set m 0).count x = 0 := by
    intro x
    rw [Tally.count_set, h.count_eq_zero, ite_self]
  have hlt := toSeek_skip_lt (s := s) hrest
  unfold Passage.place
  dsimp only
  split
  · exact .placed ⟨rfl, hleaf, (hskip.stand (some m)).recount hzero h.ceiling_eq_zero, hitems,
      hlive⟩ hlt hquiet
  · exact .placed ⟨rfl, hleaf, hskip.stand (some m), hitems, hlive⟩ hlt hquiet

/-- A group that is the next member is entered. -/
theorem drifts_enter (hs : s.Built) (hdepth : s.isWithin s.limits.maxModelDepth root = true)
    (h : w.Childless s root) {passed rest : List Member}
    (hrest : w.here.rest = passed ++ .group g :: rest) (hm : w.isPassed s (.group g) = false)
    {last : Option Member}
    (hquiet : s.AcceptsNone root → before ++ violations = []) :
    Drifts s root before (w.toSeek s)
      (Passage.enterGroup s ⟨{ w with here := { w.here with rest } }, last, violations⟩ g) := by
  obtain ⟨henter, hentered⟩ := h.enter hdepth hrest hm
  unfold Passage.enterGroup
  rw [henter]
  refine .again (hentered.recount (fun x => ?_) fun x => ?_) (toSeek_entering hs hrest) hquiet
  · rw [Tally.count_set, hentered.count_eq_zero, ite_self]
  · rw [Tally.count_set, hentered.ceiling_eq_zero, ite_self]

section

variable (hs : s.Built) (hmax : (s.group root).occurs.max ≠ some 0)
  (hdepth : s.isWithin s.limits.maxModelDepth root = true) (hwaits : s.Waits root)
include hs hmax

/-- A group that must not occur is left. -/
theorem drifts_over (h : w.Childless s root) (hover : w.isGroupOver s = true)
    {last : Option Member} (hquiet : s.AcceptsNone root → before ++ violations = []) :
    Drifts s root before (w.toSeek s)
      (Passage.afterClose ⟨w, last, violations⟩ (w.closeGroup s)) := by
  have hzero : (s.group w.here.group).occurs.max = some 0 := by
    obtain ⟨n, hn, hle⟩ := Occurs.isOver_iff.1 hover
    rw [h.reach_eq_zero, Nat.le_zero] at hle
    obtain rfl : n = 0 := UInt32.toNat_inj.1 hle
    exact hn
  cases houter : w.outer with
  | nil => exact absurd (h.eq_root houter ▸ hzero) hmax
  | cons f outer =>
      have hclosed := closed_closeGroup hs h houter
      generalize w.closeGroup s = r at hclosed
      cases hclosed with
      | goesOn hw hsuffix | misses hw hsuffix =>
          exact .again hw (toSeek_lt_of_suffix (houter ▸ hsuffix)) hquiet
      | ends hw hroot hmin =>
          exact .ended fun ha => (finish_short hw hroot hmin last).symm ▸ hquiet ha

include hwaits

/-- A group in which nothing has matched is left. -/
theorem drifts_leaveUnmatched (h : w.Childless s root) (hover : w.isGroupOver s = false)
    (hquiet : s.AcceptsNone root → before ++ violations = []) :
    Drifts s root before (w.toSeek s) (Passage.leaveUnmatched s ⟨w, none, violations⟩) := by
  cases houter : w.outer with
  | nil =>
      unfold Passage.leaveUnmatched
      dsimp only
      rw [closeGroup_of_root (by split <;> exact houter)]
      exact .ended fun ha => (finish_root hmax h houter ha).symm ▸ hquiet ha
  | cons f outer =>
      have hlive : (s.group w.here.group).occurs.max ≠ some 0 := by
        intro hnever
        have hopen := Occurs.isOver_eq_false_iff.1 hover 0 hnever
        exact absurd hopen (Nat.not_lt_zero _)
      have hsatisfied : ((s.group w.here.group).compositor = .all && w.isSatisfied s) = false := by
        by_cases hall : (s.group w.here.group).compositor = .all
        · rw [h.not_isSatisfied hs hwaits (houter ▸ List.cons_ne_nil f outer) hall hlive,
            Bool.and_false]
        · simp [hall]
      have hclosed := closed_closeGroup hs h houter
      unfold Passage.leaveUnmatched
      simp only [hsatisfied, Bool.false_eq_true, if_false]
      generalize w.closeGroup s = r at hclosed
      rw [← houter] at hclosed
      cases hclosed with
      | goesOn hw hsuffix => exact .again hw (toSeek_lt_of_suffix hsuffix) hquiet
      | misses hw hsuffix hempty =>
          have hnot : ¬s.AcceptsNone root := fun ha => by cases hempty.symm.trans ha.isEmptiable
          dsimp only
          split
          · exact .again hw (toSeek_lt_of_suffix hsuffix) fun ha => absurd ha hnot
          · exact .again hw (toSeek_lt_of_suffix hsuffix) hquiet
      | ends hw hroot hmin =>
          exact .ended fun ha => (finish_short hw hroot hmin none).symm ▸ hquiet ha

include hdepth

/-- A step of a walk that has met no child. -/
theorem drifts_step (h : w.Childless s root) (last : Option Member)
    (hquiet : s.AcceptsNone root → before ++ violations = []) :
    Drifts s root before (w.toSeek s) (Passage.step s ⟨w, last, violations⟩) := by
  by_cases hover : w.isGroupOver s = true
  · rw [Passage.step_of_over hover]
    exact drifts_over hs hmax h hover hquiet
  rw [Bool.not_eq_true] at hover
  have hnext := next_nextItem s w
  generalize heq : w.nextItem s = next at hnext
  cases hnext with
  | none =>
      rw [Passage.step_of_none hover heq]
      have hless : toSeek s { w with here := { w.here with rest := [] } } ≤ w.toSeek s := by
        simp only [toSeek, passing, List.map_cons, List.sum_cons, List.map_nil, List.sum_nil]
        omega
      unfold Passage.leaveEnd
      rw [if_pos (by simp [h.matched _ List.mem_cons_self])]
      have hskip := h.skip [] List.nil_suffix
      exact (drifts_leaveUnmatched hs hmax hwaits hskip hover hquiet).mono hless
  | @some passed rest m hrest hpassed hm =>
      cases hgroup : m.isGroup with
      | false =>
          rw [Passage.step_of_leaf hover heq hgroup]
          exact drifts_place h hrest hm hgroup hquiet
      | true =>
          obtain ⟨g, rfl⟩ : ∃ g, m = .group g := by
            cases m with
            | element e | wildcard x => cases hgroup
            | group g => exact ⟨g, rfl⟩
          rw [Passage.step_of_group hover heq]
          exact drifts_enter hs hdepth h hrest hm hquiet

/-- A walk that has met no child comes to a leaf or to its end. -/
theorem drifts_run : ∀ {fuel : Nat} {w : Walk} (last : Option Member) {violations : List Violation},
    w.Childless s root → (s.AcceptsNone root → before ++ violations = []) → w.toSeek s < fuel →
    Drifts s root before (w.toSeek s) (Passage.run s fuel ⟨w, last, violations⟩)
  | 0, _, _, _, _, _, hfuel => absurd hfuel (Nat.not_lt_zero _)
  | fuel + 1, w, last, violations, h, hquiet, hfuel => by
    have hstep := drifts_step hs hmax hdepth hwaits h last hquiet
    unfold Passage.run
    generalize Passage.step s ⟨w, last, violations⟩ = move at hstep
    cases hstep with
    | @again p hw hlt hmore => exact (drifts_run p.last hw hmore (by omega)).mono hlt.le
    | placed hw hlt hmore => exact .placed hw hlt hmore
    | ended hend => exact .ended hend

/-- What a walk comes to that passes a leaf without a child: the next leaf, or its end. -/
inductive Passes (s : Schema) (root : GroupId) (before : List Violation) (bound : Nat) :
    Except Failure (List Violation) × Walk → Prop
  | placed {w : Walk} {m : Member} {more : List Violation} : w.StandsAt s root m →
      w.toSeek s < bound → (s.AcceptsNone root → before ++ more = []) →
      Passes s root before bound (.ok more, w)
  | ended {w : Walk} {more : List Violation} : w.current = none →
      (s.AcceptsNone root → before ++ more = []) → Passes s root before bound (.ok more, w)

theorem passes_moveOn (h : w.StandsAt s root m) (hbudget : w.toSeek s < s.stepBudget)
    (hquiet : s.AcceptsNone root → before = []) :
    Passes s root before (w.toSeek s) (w.moveOn s m) := by
  have hclosed := closed_closeItem hs w.outer m w h.childless fun hall =>
    mem_members_of_items hall (h.rest.subset List.mem_cons_self)
  have hstill : s.AcceptsNone root → before ++ [] = [] := by
    rwa [List.append_nil]
  -- what is left after the leaf is not more
  have hrun : ∀ {w' : Walk} {violations : List Violation}, w'.Childless s root →
      w'.here :: w'.outer <:+ w.here :: w.outer →
      (s.AcceptsNone root → before ++ violations = []) →
      Passes s root before (w.toSeek s)
        (settle s (Passage.run s s.stepBudget ⟨w', none, violations⟩)) := by
    intro w' violations hw hsuffix hmore
    have hle := toSeek_le_of_suffix (s := s) hsuffix
    have hdrifts :=
      (drifts_run hs hmax hdepth hwaits none hw hmore (hle.trans_lt hbudget)).mono hle
    generalize hmove : Passage.run s s.stepBudget ⟨w', none, violations⟩ = move at hdrifts
    cases hdrifts with
    | again => exact absurd hmove Passage.run_ne_again
    | placed hw' hlt hmore => exact .placed hw' hlt hmore
    | @ended p hend => exact .ended (current_finish p) hend
  generalize heq : closeItem s w.outer m w = r at hclosed
  cases hclosed with
  | ends hw houter hmin =>
      rw [moveOn_of_none heq]
      exact .ended (current_finish _) fun ha => (finish_short hw houter hmin none).symm ▸ hstill ha
  | goesOn hw hsuffix =>
      rw [moveOn_of_some heq]
      exact hrun hw hsuffix hstill
  | misses hw hsuffix hempty =>
      rw [moveOn_of_some heq]
      exact hrun hw hsuffix fun ha => by cases hempty.symm.trans ha.isEmptiable

/-- A walk that has met no child passes all leaves. -/
theorem stopFrom_childless : ∀ {fuel : Nat} {w : Walk} {m : Member} {before : List Violation},
    w.StandsAt s root m → (s.AcceptsNone root → before = []) → w.toSeek s < fuel →
    fuel ≤ s.stepBudget → ∃ violations, (w.stopFrom s fuel before).1 = .ok violations ∧
      (s.AcceptsNone root → violations = [])
  | 0, _, _, _, _, _, hfuel, _ => absurd hfuel (Nat.not_lt_zero _)
  | fuel + 1, w, m, before, h, hquiet, hfuel, hbudget => by
    have hpasses := passes_moveOn hs hmax hdepth hwaits h (hfuel.trans_le hbudget) hquiet
    unfold stopFrom
    rw [if_neg (by simp [isEnded, h.current]), advance_pass h.current]
    generalize w.moveOn s m = moved at hpasses
    cases hpasses with
    | placed hw hlt hmore => exact stopFrom_childless hw hmore (by omega) (by omega)
    | @ended w' more hended hmore =>
        have hover : w'.isEnded = true := by simp [isEnded, hended]
        refine ⟨before ++ more, ?_, hmore⟩
        cases fuel <;> simp [stopFrom, hover]

end

/-! ## The first leaf -/

/-- Whatever was passed over in the groups around one another can be empty; `now` is where the walk
is in the first of them. -/
def Unskipped (s : Schema) : List Member → List Frame → Prop
  | _, [] => True
  | now, f :: outer =>
    (∀ x ∈ items s s.version f.group, s.isEmptiable x = false → x ∈ now ++ f.rest) ∧
      Unskipped s [.group f.group] outer

theorem Unskipped.mono {now now' : List Member} {f : Frame} {rest : List Member}
    (h : Unskipped s now (f :: outer)) (hless : ∀ x ∈ now ++ f.rest, s.isEmptiable x = false →
      x ∈ now' ++ rest) : Unskipped s now' ({ f with rest } :: outer) :=
  ⟨fun x hx hne => hless x (h.1 x hx hne) hne, h.2⟩

/-- What a walk comes to that looks for its first leaf. It finds none just if the group can be
empty. -/
inductive Finds (s : Schema) (root : GroupId) (bound : Nat) : Walk → Prop
  | leaf {w : Walk} {m : Member} : w.StandsAt s root m → Unskipped s [m] (w.here :: w.outer) →
      w.toSeek s ≤ bound → Finds s root bound w
  | nothing {w : Walk} : w.current = none → s.isEmptiable (.group root) = true →
      Finds s root bound w

theorem Finds.mono {bound bound' : Nat} (h : Finds s root bound w) (hle : bound ≤ bound') :
    Finds s root bound' w := by
  cases h with
  | leaf hw hunskipped hbound => exact .leaf hw hunskipped (hbound.trans hle)
  | nothing hended hempty => exact .nothing hended hempty

/-- What a step does that looks for the first leaf. -/
inductive SeeksFirst (s : Schema) (root : GroupId) (w : Walk) : Prop
  | found {w' : Walk} : (∀ fuel, w.seekFirst s (fuel + 1) = (.ok (), w')) →
      Finds s root (w.toSeek s) w' → SeeksFirst s root w
  | goesOn {w' : Walk} : (∀ fuel, w.seekFirst s (fuel + 1) = w'.seekFirst s fuel) →
      w'.Childless s root → w'.current = none → Unskipped s [] (w'.here :: w'.outer) →
      w'.toSeek s < w.toSeek s → SeeksFirst s root w

/-- A group without a further member can be empty, and is left. -/
theorem seeks_of_none (hs : s.Built) (h : w.Childless s root) (hcurrent : w.current = none)
    (hunskipped : Unskipped s [] (w.here :: w.outer))
    (hpassed : ∀ x ∈ w.here.rest, w.isPassed s x = true)
    (hnext : w.nextItem s = (none, { w with here := { w.here with rest := [] } })) :
    SeeksFirst s root w := by
  have hempty : s.isEmptiable w.hereMember = true := by
    refine hs.isEmptiable_of_items (v := s.version) fun x hx => ?_
    by_contra hne
    have hin := hunskipped.1 x hx (by simpa using hne)
    exact hne (h.isEmptiable_of_isPassed hs hx (hpassed x hin))
  have hskip := h.skip [] List.nil_suffix
  cases houter : w.outer with
  | nil =>
      have hfinds : Finds s root (w.toSeek s) { w with here := { w.here with rest := [] } } :=
        .nothing hcurrent (h.eq_root houter ▸ hempty)
      refine .found (fun fuel => ?_) hfinds
      unfold seekFirst
      rw [hnext]
      simp only [leave?, houter]
  | cons f outer =>
      have houtside := hunskipped.2
      rw [houter] at houtside
      have hmore : Unskipped s [] (f :: outer) := houtside.mono fun x hx hne => by
        rcases List.mem_cons.1 hx with rfl | hx
        · rw [show s.isEmptiable (.group w.here.group) = true from hempty] at hne
          cases hne
        · exact hx
      refine .goesOn (fun fuel => ?_) (hskip.leave houter) hcurrent hmore
        (toSeek_lt_of_suffix (houter ▸ List.suffix_rfl))
      conv_lhs => unfold seekFirst
      rw [hnext]
      simp only [leave?, houter]

/-- What is passed over on the way to the next member can be empty. -/
theorem Unskipped.pass (hunskipped : Unskipped s [] (w.here :: w.outer)) (hs : s.Built)
    (h : w.Childless s root) {passed rest : List Member} (hrest : w.here.rest = passed ++ m :: rest)
    (hpassed : ∀ x ∈ passed, w.isPassed s x = true) :
    Unskipped s [m] ({ w.here with rest } :: w.outer) := by
  refine hunskipped.mono fun x hx hne => ?_
  rw [List.nil_append] at hx
  have hin := h.rest.subset hx
  rw [hrest] at hx
  rcases List.mem_append.1 hx with hx | hx
  · rw [h.isEmptiable_of_isPassed hs hin (hpassed x hx)] at hne
    cases hne
  · exact hx

/-- A leaf is stood on. -/
theorem seeks_of_leaf (h : w.Childless s root) {rest : List Member}
    (hsuffix : m :: rest <:+ w.here.rest) (hm : w.isPassed s m = false) (hleaf : m.isGroup = false)
    (hless : toSeek s { w with here := { w.here with rest } } ≤ w.toSeek s)
    (hunskipped : Unskipped s [m] ({ w.here with rest } :: w.outer))
    (hnext : w.nextItem s = (some m, { w with here := { w.here with rest } })) :
    SeeksFirst s root w := by
  have hskip := h.skip rest ((List.suffix_cons m rest).trans hsuffix)
  have hfound : Finds s root (w.toSeek s)
      { w with here := { w.here with rest }, current := some m } :=
    .leaf ⟨rfl, hleaf, hskip.stand (some m), hsuffix.trans h.rest,
      Childless.max_ne_zero_of_isPassed (w := w) hm⟩ hunskipped hless
  refine .found (fun fuel => ?_) hfound
  unfold seekFirst
  rw [hnext]
  cases m with
  | element e | wildcard x => rfl
  | group g => cases hleaf

/-- A group is entered unless it has no members. -/
theorem seeks_of_group (hs : s.Built) (hdepth : s.isWithin s.limits.maxModelDepth root = true)
    (h : w.Childless s root) (hcurrent : w.current = none) {passed rest : List Member}
    (hrest : w.here.rest = passed ++ .group g :: rest) (hm : w.isPassed s (.group g) = false)
    (hunskipped : Unskipped s [.group g] ({ w.here with rest } :: w.outer))
    (hnext : w.nextItem s = (some (.group g), { w with here := { w.here with rest } })) :
    SeeksFirst s root w := by
  by_cases hnil : (s.group g).members.isEmpty = true
  · have hvoid : s.isEmptiable (.group g) = true :=
      hs.isEmptiable_of_isVoid ⟨g, rfl, List.isEmpty_iff.1 hnil⟩
    have hmore : Unskipped s [] ({ w.here with rest } :: w.outer) :=
      hunskipped.mono fun x hx hne => by
        rcases List.mem_cons.1 hx with rfl | hx
        · rw [hvoid] at hne
          cases hne
        · exact hx
    have hskip := h.skip rest (hrest ▸ ⟨passed ++ [.group g], by simp⟩)
    refine .goesOn (fun fuel => ?_) hskip hcurrent hmore (toSeek_skip_lt hrest)
    conv_lhs => unfold seekFirst
    rw [hnext]
    exact if_pos hnil
  · obtain ⟨henter, hentered⟩ := h.enter hdepth hrest hm
    have hitself : ∀ x ∈ items s s.version g, s.isEmptiable x = false →
        x ∈ [] ++ items s w.version g := fun x hx _ => by rwa [h.version]
    refine .goesOn (fun fuel => ?_) hentered hcurrent ⟨hitself, hunskipped⟩
      (toSeek_entering hs hrest)
    conv_lhs => unfold seekFirst
    rw [hnext]
    refine (if_neg hnil).trans ?_
    rw [henter]

theorem finds_seekFirst (hs : s.Built) (hdepth : s.isWithin s.limits.maxModelDepth root = true) :
    ∀ {fuel : Nat} {w : Walk}, w.Childless s root → w.current = none →
      Unskipped s [] (w.here :: w.outer) → w.toSeek s < fuel →
      ∃ w', w.seekFirst s fuel = (.ok (), w') ∧ Finds s root (w.toSeek s) w'
  | 0, _, _, _, _, hfuel => absurd hfuel (Nat.not_lt_zero _)
  | fuel + 1, w, h, hcurrent, hunskipped, hfuel => by
    have hseeks : SeeksFirst s root w := by
      have hnext := next_nextItem s w
      generalize heq : w.nextItem s = next at hnext
      cases hnext with
      | none hpassed => exact seeks_of_none hs h hcurrent hunskipped hpassed heq
      | @some passed rest m hrest hpassed hm =>
          have hmore := hunskipped.pass hs h hrest hpassed
          cases m with
          | element e | wildcard x =>
              exact seeks_of_leaf h ⟨passed, hrest.symm⟩ hm rfl
                (toSeek_skip_lt hrest).le hmore heq
          | group g => exact seeks_of_group hs hdepth h hcurrent hrest hm hmore heq
    cases hseeks with
    | found heq hfinds => exact ⟨_, heq fuel, hfinds⟩
    | goesOn heq hw hnone hmore hlt =>
        obtain ⟨w', hseek, hfinds⟩ := finds_seekFirst hs hdepth hw hnone hmore
          (hlt.trans_le (Nat.le_of_lt_succ hfuel))
        exact ⟨w', (heq fuel).trans hseek, hfinds.mono hlt.le⟩

/-- A walk starts on a leaf, or is over at once in a group that can be empty. -/
theorem finds_start (hs : s.Built) (hdepth : s.isWithin s.limits.maxModelDepth root = true) :
    ∃ w bound, Walk.start s root s.version = .ok w ∧ bound < s.stepBudget ∧
      Finds s root bound w := by
  let fresh : Walk := ⟨root, s.version, ⟨root, items s s.version root, false⟩, [], Tally.zero,
    Tally.zero, none⟩
  have hfresh : fresh.Childless s root :=
    ⟨⟨rfl, .root, List.suffix_rfl⟩, List.forall_mem_singleton.2 rfl, fun _ => rfl, fun _ => rfl⟩
  have hbudget : fresh.toSeek s < s.stepBudget := toSeek_clear_lt hs fresh
  obtain ⟨w, hseek, hfinds⟩ := finds_seekFirst hs hdepth hfresh rfl ⟨fun x hx _ => hx, trivial⟩
    hbudget
  refine ⟨w, fresh.toSeek s, ?_, hbudget, hfinds⟩
  simp only [Walk.start, restart, clear]
  rw [hseek]

end Walk

namespace Schema

variable {s : Schema} {root : GroupId}

/-- In an `all` group, none of the members or none of the leaves must occur. -/
theorem Conclusive.all_min (hc : s.Conclusive root) (hs : s.Built)
    (hall : (s.group root).compositor = .all) (hmin : (s.group root).occurs.min ≠ 0)
    (hhollow : s.isHollow root = true) {m : Member} (hm : m ∈ s.leaves root)
    (hlive : (s.occurs m).max ≠ some 0) :
    (∀ m ∈ s.unordered s.version root, (s.occurs m).min = 0) ∧
      (s.group root).occurs.min.toNat ≤ 1 ∨
    ∀ m ∈ (s.group root).members, (s.occurs m).min = 0 := by
  cases hv : s.version with
  | v10 =>
      rw [isHollow, hall] at hhollow
      refine .inr fun x hx => UInt32.toNat_inj.1 ?_
      exact (isEmptiable_leaf (hs.all_member hv hall hx).1).1 (List.all_eq_true.1 hhollow x hx)
  | v11 =>
      rcases hc.all hv hall hmin ⟨m, hm, hlive⟩ hhollow with hdirect | ⟨hone, hleaves⟩
      · exact .inr hdirect
      · exact .inl ⟨hleaves, hone ▸ Nat.le_refl 1⟩

/-- Where the counts tell so, a walk that meets no child accepts a group that can be empty. -/
theorem Conclusive.acceptsNone (hc : s.Conclusive root) (hs : s.Built) {m : Member}
    (hm : m ∈ s.leaves root)
    (hlive : (s.group root).compositor = .all → (s.occurs m).max ≠ some 0)
    (hempty : s.isEmptiable (.group root) = true) : s.AcceptsNone root := by
  have hmembers : (s.group root).members ≠ [] := by
    intro hnil
    rw [hs.leaves_eq_flatMap, hnil] at hm
    cases hm
  have hhollow : (s.group root).occurs.min ≠ 0 → s.isHollow root = true := fun hmin =>
    (hs.isEmptiable_iff_isHollow hmin hmembers).1 hempty
  refine ⟨hempty, fun hchoice => ?_, fun hall => or_iff_not_imp_left.2 fun hmin =>
    hc.all_min hs hall hmin (hhollow hmin) hm (hlive hall)⟩
  by_contra hmin
  cases (hc.choice hchoice hmin (List.ne_nil_of_mem hm)).symm.trans (hhollow hmin)

/-- A walk through a group that meets no child comes to its end. It reports nothing of a group that
can be empty, where the counts tell so. -/
theorem Waits.stop_start (hwaits : s.Waits root) (hs : s.Built)
    (hdepth : s.isWithin s.limits.maxModelDepth root = true) : ∃ w violations,
      Walk.start s root s.version = .ok w ∧ (w.stop s).1 = .ok violations ∧
      (s.Conclusive root → s.isEmptiable (.group root) = true → violations = []) := by
  obtain ⟨w, bound, hstart, hbudget, hfinds⟩ := Walk.finds_start hs hdepth
  cases hfinds with
  | nothing hended hempty =>
      have hover : w.isEnded = true := by simp [Walk.isEnded, hended]
      refine ⟨w, [], hstart, ?_, fun _ _ => rfl⟩
      unfold Walk.stop
      cases s.stepBudget <;> simp [Walk.stopFrom, hover]
  | @leaf m hw hunskipped hle =>
      have hin : m ∈ s.leaves root := by
        have hcurrent := (Walk.inside_start hs hstart).current m hw.current
        rwa [Walk.root_start hstart] at hcurrent
      have hmax : (s.group root).occurs.max ≠ some 0 :=
        hw.childless.amid.max_root
          (Walk.max_ne_zero_of_items (hw.rest.subset List.mem_cons_self))
      have hlive : (s.group root).compositor = .all → (s.occurs m).max ≠ some 0 := fun hall =>
        hw.live (by rwa [hw.childless.amid.eq_root_of_all hall])
      obtain ⟨violations, hstop, hquiet⟩ := Walk.stopFrom_childless hs hmax hdepth hwaits hw
        (fun _ => rfl) (hle.trans_lt hbudget) (Nat.le_refl _)
      exact ⟨w, violations, hstart, hstop, fun hc hempty =>
        hquiet (hc.acceptsNone hs hin hlive hempty)⟩

end Schema

end Conform
