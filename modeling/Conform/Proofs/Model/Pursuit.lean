import Conform.Proofs.Model.Departure
import Conform.Proofs.Model.Outcome
/-!
# On the way to the next leaf

Step by step a walk goes on to the next leaf of a steady model. What is still to come stays so, and
no step reports a violation.
-/

namespace Conform

open Components Walk Schema

section

variable (s : Schema) (root : GroupId) (counts : Tally)

/-- What is still to come where a walk stands on a leaf: no child of this repetition has come, or one
for a member of the sequence, or one for the alternative. -/
inductive Stands (f : Frame) (outer : List Frame) (done : List Member) (m : Member)
    (ns : List QName) : Prop
  | fresh : f.matched = false → counts.count m = 0 → (∀ x ∈ done, Passed s root x ns) →
      Idle s root counts f.group outer ns → Stands f outer done m ns
  | within : (s.group f.group).compositor = .sequence → f.matched = true →
      (∃ x ∈ done ++ [m], 0 < counts.count x) →
      (counts.count m = 0 ∨ ∀ n ∈ (s.occurs m).max, counts.count m < n.toNat) →
      Still s root m (counts.count m) (Out s root counts (f :: outer)) ns → Stands f outer done m ns
  | alternative : (s.group f.group).compositor = .choice → f.matched = true →
      0 < counts.count m →
      ((s.occurs m).isAmbiguous = false → ∀ n ∈ (s.occurs m).max, counts.count m < n.toNat) →
      Pending s root counts m (counts.count m) f.group (Out s root counts outer) ns →
      Stands f outer done m ns

end

namespace Walk

/-- A walk that stands on a leaf, with the children `ns` still to come. -/
structure OnTrack (s : Schema) (root : GroupId) (w : Walk) (m : Member) (ns : List QName) :
    Prop where
  current : w.current = some m
  isLeaf : m.isGroup = false
  tidy : Tidy s w.counts w.ceilings (some m)
  stack : Stack s root w.counts w.ceilings w.here.group w.outer
  isOpen : IsOpen s w.counts w.ceilings w.here.group
  stands : ∃ done, Holds s root w.counts w.ceilings w.here done m ∧
    Stands s root w.counts w.here w.outer done m ns

/-- Where a step leads to if nothing is violated. The budget may be too small. -/
def LeadsTo (s : Schema) (root : GroupId) (ns : List QName) : Move → Prop
  | .again p => p.violations = [] ∧ Tracks s root p.walk ns
  | .placed p => p.violations = [] ∧ ∃ m, OnTrack s root p.walk m ns
  | .ended p => p.violations = [] ∧ IsDone s root p.walk p.last ns
  | .failed f _ => f = .endlessModel

end Walk

variable {s : Schema} {root g : GroupId} {counts ceilings counts' ceilings' : Tally}
  {m x : Member} {f : Frame} {outer : List Frame} {done rest : List Member} {w : Walk}
  {ns : List QName} {last : Option Member}

/-! ## Groups that have reached their maximum -/

/-- A group whose maximum binds has reached it with the least number of repetitions. -/
theorem Schema.Gauge.over (h : Gauge s counts ceilings (.group g)) (hs : s.Tractable root)
    (hin : s.Contains root (.group g)) (hfree : ¬s.Free root (.group g))
    (hover : ¬IsOpen s counts ceilings g) :
    ∃ n ∈ (s.group g).occurs.max, n.toNat ≤ counts.count (.group g) := by
  unfold IsOpen at hover
  simp only [not_forall, Nat.not_lt] at hover
  obtain ⟨n, hn, hle⟩ := hover
  refine ⟨n, hn, ?_⟩
  by_contra hlt
  have hceiling : counts.count (.group g) < ceilings.count (.group g) := by omega
  -- it may be repeated, but not at will
  have hpos : 1 ≤ counts.count (.group g) := by
    by_contra hzero
    have hnone := h.zero (by omega)
    omega
  have hrepeats : s.Repeats root g := by
    refine .inl ⟨fun hzero => ?_, fun hone => ?_⟩
    · obtain rfl := Option.some.inj (hn.symm.trans hzero)
      exact hlt (Nat.zero_le _)
    · obtain rfl := Option.some.inj (hn.symm.trans hone)
      exact hlt hpos
  have hwide : ¬s.Wide root g := by
    rintro (⟨hnone, -⟩ | hyes)
    · rw [hnone] at hn
      cases hn
    · exact hfree hyes
  refine absurd (h.exact fun g' hg x hlonely => ?_) (Nat.not_le.2 hceiling)
  obtain rfl := Member.group.inj hg
  exact (hs.steady.lonely g x hin hrepeats hlonely).resolve_right fun hno => hwide hno.1

/-- A group that has reached its maximum ends. -/
theorem Stack.ends_over (hs : s.Tractable root) (hstack : Stack s root counts ceilings g outer)
    (hover : ¬IsOpen s counts ceilings g)
    (h : Still s root (.group g) (counts.count (.group g)) (Out s root counts outer) ns) :
    Ends s root counts (.group g) ∧ Out s root counts outer ns := by
  by_cases hfree : s.Free root (.group g)
  · have hmax : ∃ n ∈ (s.group g).occurs.max,
        n.toNat ≤ max (counts.count (.group g)) (ceilings.count (.group g)) := by
      unfold IsOpen at hover
      simpa only [not_forall, Nat.not_lt, exists_prop] using hover
    have hpos : 1 ≤ counts.count (.group g) := by
      by_contra hzero
      have hnone := hstack.gauge.zero (by omega)
      obtain ⟨n, hn, hle⟩ := hmax
      have hn' := Occurs.max_pos (o := (s.group g).occurs) hfree.max_ne_zero hn
      omega
    cases outer with
    | nil =>
        obtain rfl := hstack.eq_root
        exact absurd hfree (not_free_root hs.built)
    | cons f outer =>
        exact ⟨.of_admits (hfree.admits hpos), hstack.chain.spread hs hfree h⟩
  · exact (h.full hfree (hstack.gauge.over hs hstack.contains hfree hover)).imp_left .of_admits

/-- A group that must not occur has no words. -/
theorem Schema.Gauge.passed (h : Gauge s counts ceilings (.group g))
    (hover : ¬IsOpen s counts ceilings g) (hzero : counts.count (.group g) = 0) :
    Passed s root (.group g) ns := by
  intro n _ u hword
  refine hover fun i hi => ?_
  rw [hzero, h.zero hzero]
  exact Occurs.max_pos (o := (s.group g).occurs) (max_ne_zero_of_words hword) hi

/-! ## Leaving groups -/

/-- A group that ends is left. -/
theorem Walk.ClosesTo.of_group (hs : s.Tractable root) (htidy : Tidy s w.counts w.ceilings none)
    (hstack : Stack s root w.counts w.ceilings w.here.group w.outer)
    (hidle : Idle s root w.counts w.here.group w.outer ns)
    (hends : Still s root w.hereMember (w.count w.hereMember) (Out s root w.counts w.outer) ns →
      Ends s root w.counts w.hereMember ∧ Out s root w.counts w.outer ns)
    (hpassed : w.count w.hereMember = 0 → Passed s root w.hereMember ns)
    (hlast : last = none ∨ (s.occurs w.hereMember).min.toNat ≤ w.reach w.hereMember) :
    ClosesTo s root w.hereMember last ns (w.closeGroup s) := by
  unfold closeGroup
  obtain ⟨root', version, here, outer, counts, ceilings, current⟩ := w
  cases outer with
  | nil =>
      have hroot : here.group = root := hstack.eq_root
      have hmember : hereMember ⟨root', version, here, [], counts, ceilings, current⟩ =
          .group root := congrArg Member.group hroot
      rw [hmember] at hends hpassed hlast ⊢
      dsimp only at hidle
      rw [hroot] at hidle
      exact IsDone.of_idle hs hroot hidle hends hlast
  | cons f outer =>
      obtain ⟨done, hleaving⟩ := hstack.leaving hs htidy hidle hends hpassed
      exact Leaving.closes (w := ⟨root', version, f, f :: outer, counts, ceilings, current⟩) hs
        hleaving

theorem Walk.ClosesTo.leadsTo {r : Option Bool × Walk} (h : ClosesTo s root m last ns r) :
    LeadsTo s root ns (Passage.afterClose ⟨w, last, []⟩ r) := by
  obtain ⟨missing, w'⟩ := r
  cases missing with
  | none => exact ⟨rfl, h⟩
  | some missing => exact ⟨rfl, h.1⟩

/-! ## The next member -/

/-- A group in which no repetition has begun, or one has ended. -/
theorem Seeks.idle (h : Seeks s root counts ceilings f outer ns)
    (hstack : Stack s root counts ceilings f.group outer)
    (hnext : IsOpen s counts ceilings f.group → f.rest = []) :
    Idle s root counts f.group outer ns := by
  cases h with
  | fresh _ _ hidle => exact hidle
  | within _ _ hrest _ _ _ hopen => exact absurd (hnext hopen) hrest
  | complete _ _ _ hpos hstill =>
      refine .of_still hpos hstill fun houter => ?_
      subst houter
      exact hstack.eq_root

/-- The next member of a group is looked at. -/
theorem Seeks.next (h : Seeks s root counts ceilings f outer ns)
    (hopen : IsOpen s counts ceilings f.group) (hrest : f.rest = m :: rest) :
    ∃ done, Holds s root counts ceilings ⟨f.group, rest, f.matched⟩ done m ∧
      (f.matched = false ∧ (∀ x ∈ done, Passed s root x ns) ∧ Idle s root counts f.group outer ns ∨
        f.matched = true ∧ (s.group f.group).compositor = .sequence ∧
          (∃ x ∈ done, 0 < counts.count x) ∧
          Still s root m 0 (Out s root counts (⟨f.group, rest, f.matched⟩ :: outer)) ns) := by
  cases h with
  | fresh hmatched hmembers hidle =>
      obtain ⟨done, hmembers, hsettled, hpassed⟩ := hmembers hopen
      rw [hrest] at hmembers
      exact ⟨done, ⟨hmembers, hsettled⟩, .inl ⟨hmatched, hpassed, hidle⟩⟩
  | @within done hsequence hmatched _ hmembers hsettled hcounted _ hout =>
      rw [hrest] at hmembers
      refine ⟨done, ⟨hmembers, fun _ => hsettled⟩, .inr ⟨hmatched, hsequence, hcounted, ?_⟩⟩
      obtain ⟨u, v, rfl, hrow, hstill⟩ := hout
      rw [later, if_neg (by simp [hsequence]), hrest] at hrow
      obtain ⟨a, b, rfl, hword, hrow⟩ := row_cons_iff.1 hrow
      cases hword with
      | @intro _ j _ hadmits htimes =>
          refine ⟨j, a, b ++ v, List.append_assoc .., htimes, (Nat.zero_add j).symm ▸ hadmits, b, v,
            rfl, ?_, hstill⟩
          rw [later, if_neg (by simp [hsequence])]
          exact hrow
  | complete _ _ hnil =>
      rw [hrest] at hnil
      cases hnil

/-- A group inside the innermost one is entered. -/
theorem Walk.Tracks.leadsTo_enter {sub : GroupId} (hs : s.Tractable root)
    (hdepth : s.isWithin s.limits.maxModelDepth root = true) (h : Tracks s root w ns)
    (hopen : IsOpen s w.counts w.ceilings w.here.group) (hrest : w.here.rest = .group sub :: rest) :
    LeadsTo s root ns (Passage.step s ⟨w, last, []⟩) := by
  have hin := h.stack.contains
  have hnext : w.nextItem s =
      (some (.group sub), { w with here := ⟨w.here.group, rest, w.here.matched⟩ }) := by
    rw [nextItem_of_ne_all (hs.compositor _ hin), hrest]
  obtain ⟨done, hholds, hcases⟩ := h.seeks.next hopen hrest
  have hmem : .group sub ∈ (s.group w.here.group).members := hholds.mem
  have hsame : ∀ x, x ≠ .group sub → (w.counts.set (.group sub) 0).count x = w.counts.count x ∧
      (w.ceilings.set (.group sub) 0).count x = w.ceilings.count x := by
    intro x hx
    simp [hx]
  have hzero : (w.counts.set (.group sub) 0).count (.group sub) = 0 := by simp
  obtain ⟨hstack, hholds', hopen', hframes⟩ := hholds.recount hs.built h.stack hsame
  rw [Passage.step_of_group (isGroupOver_eq_false_iff.2 hopen) hnext]
  unfold Passage.enterGroup enter
  dsimp only
  rw [if_neg (by simp [h.stack.room hdepth hmem])]
  refine ⟨rfl, h.tidy.mono (fun x hx => .inl (hsame x ?_).1) fun x hx => (hsame x ?_).2,
    .nested hstack (hopen' hopen) hholds' (fun hmatched => ?_)
      (.start hzero (by simp)), .restart hs (hin.member hmem) ?_⟩
  · rintro rfl
    cases hx
  · rintro rfl
    cases hx
  · rcases hcases with ⟨hunmatched, -⟩ | ⟨-, hsequence, ⟨x, hx, hpos⟩, -⟩
    · rw [show w.here.matched = true from hmatched] at hunmatched
      cases hunmatched
    · refine ⟨hsequence, x, hx, ?_⟩
      rw [(hsame x (hholds.not_mem hs.built hx)).1]
      exact hpos
  · rcases hcases with ⟨hunmatched, hpassed, hidle⟩ | ⟨hmatched, -, -, hstill⟩
    · obtain ⟨hhere, houter⟩ := List.forall_mem_cons.1 hframes
      exact .fresh hzero hunmatched hholds.members hpassed (hidle.congr hhere houter)
    · refine .going (.inr hmatched) ?_
      dsimp only
      rw [hzero, Out.congr hframes]
      exact hstill

/-- A walk comes to a leaf. -/
theorem Walk.Tracks.leadsTo_place (hs : s.Tractable root) (h : Tracks s root w ns)
    (hopen : IsOpen s w.counts w.ceilings w.here.group) (hrest : w.here.rest = m :: rest)
    (hleaf : m.isGroup = false) : LeadsTo s root ns (Passage.step s ⟨w, last, []⟩) := by
  have hin := h.stack.contains
  have hnext : w.nextItem s =
      (some m, { w with here := ⟨w.here.group, rest, w.here.matched⟩ }) := by
    rw [nextItem_of_ne_all (hs.compositor _ hin), hrest]
  obtain ⟨done, hholds, hcases⟩ := h.seeks.next hopen hrest
  have hstands : ∀ counts' : Tally, (∀ x, x ≠ m → counts'.count x = w.counts.count x) →
      counts'.count m = 0 → OnTrack s root ⟨w.root, w.version,
        ⟨w.here.group, rest, w.here.matched⟩, w.outer, counts', w.ceilings, some m⟩ m ns := by
    intro counts' hsame hzero
    obtain ⟨hstack, hholds', hopen', hframes⟩ :=
      hholds.recount hs.built h.stack fun x hx => ⟨hsame x hx, rfl⟩
    refine ⟨rfl, hleaf, (h.tidy.on m).mono (fun x _ => ?_) fun _ _ => rfl, hstack,
      hopen' hopen, done, hholds', ?_⟩
    · by_cases hx : x = m
      · exact .inr (hx ▸ hzero)
      · exact .inl (hsame x hx)
    · rcases hcases with ⟨hunmatched, hpassed, hidle⟩ | ⟨hmatched, hsequence, ⟨x, hx, hpos⟩, hstill⟩
      · obtain ⟨hhere, houter⟩ := List.forall_mem_cons.1 hframes
        exact .fresh hunmatched hzero hpassed (hidle.congr hhere houter)
      · refine .within hsequence hmatched ⟨x, by simp [hx], ?_⟩ (.inl hzero) ?_
        · rw [hsame x (hholds.not_mem hs.built hx)]
          exact hpos
        · dsimp only
          rw [hzero, Out.congr hframes]
          exact hstill
  rw [Passage.step_of_leaf (isGroupOver_eq_false_iff.2 hopen) hnext hleaf]
  unfold Passage.place
  dsimp only
  cases hcompositor : (s.group w.here.group).compositor with
  | all => exact absurd hcompositor (hs.compositor _ hin)
  | sequence =>
      rw [if_pos rfl]
      exact ⟨rfl, m, hstands _ (fun x hx => by simp [hx]) (by simp)⟩
  | choice =>
      rw [if_neg (by decide)]
      exact ⟨rfl, m, hstands _ (fun _ _ => rfl)
        (h.tidy.count_eq_zero _ m hcompositor hholds.mem hleaf nofun)⟩

/-! ## The end of a group -/

/-- Nothing is expected in a group that is excused. -/
theorem Schema.IsExcused.expected_eq_nil (h : s.IsExcused w.hereMember) : w.expected s = [] := by
  obtain ⟨g, heq, hcases, hmin⟩ := h
  obtain rfl : w.here.group = g := Member.group.inj heq
  have hnone : ((s.group w.here.group).members.filter fun m =>
      (s.group w.here.group).compositor = .choice || w.count m < (s.occurs m).min.toNat) = [] := by
    rw [List.filter_eq_nil_iff]
    intro x hx
    rcases hcases with hsequence | hnil
    · simp [hsequence, hmin x hx]
    · rw [hnil] at hx
      cases hx
  unfold expected
  exact congrArg (List.flatMap _) hnone

/-- A group is left whose members no child begins. -/
theorem Walk.Tracks.leadsTo_unmatched (hs : s.Tractable root) (h : Tracks s root w ns)
    (hidle : Idle s root w.counts w.here.group w.outer ns)
    (hpassed : ∀ x ∈ (s.group w.here.group).members, Passed s root x ns) :
    LeadsTo s root ns (Passage.leaveUnmatched s ⟨w, none, []⟩) := by
  have hin := h.stack.contains
  have hnone := hs.not_once hin hpassed
  have hcloses : ClosesTo s root w.hereMember none ns (w.closeGroup s) :=
    .of_group hs h.tidy h.stack hidle (fun hstill => hstill.pass_group hnone)
      (fun _ => passed_group hnone) (.inl rfl)
  unfold Passage.leaveUnmatched
  simp only [hs.compositor _ hin, decide_false, Bool.false_and, Bool.false_eq_true, if_false]
  generalize w.closeGroup s = r at hcloses
  obtain ⟨missing, w'⟩ := r
  cases missing with
  | none => exact ⟨rfl, hcloses⟩
  | some missing =>
      dsimp only
      split
      · rename_i hreported
        rw [Bool.and_eq_true] at hreported
        have hexpected : w.expected s = [] := (hcloses.2 hreported.1).expected_eq_nil
        rw [hexpected] at hreported
        cases hreported.2
      · exact ⟨rfl, hcloses.1⟩

/-- A group comes to its end. -/
theorem Walk.Tracks.leadsTo_end (hs : s.Tractable root) (h : Tracks s root w ns)
    (hopen : IsOpen s w.counts w.ceilings w.here.group) (hrest : w.here.rest = []) :
    LeadsTo s root ns (Passage.step s ⟨w, last, []⟩) := by
  have hin := h.stack.contains
  have hnext : w.nextItem s = (none, w) := by
    have hsame : ({ w with here := { w.here with rest := [] } } : Walk) = w := by
      rw [← hrest]
    rw [nextItem_of_ne_all (hs.compositor _ hin), hrest, hsame]
  rw [Passage.step_of_none (isGroupOver_eq_false_iff.2 hopen) hnext]
  unfold Passage.leaveEnd
  dsimp only
  have hidle := h.seeks.idle h.stack fun _ => hrest
  cases h.seeks with
  | within _ _ hne => exact absurd hrest hne
  | fresh hmatched hmembers =>
      obtain ⟨done, heq, -, hpassed⟩ := hmembers hopen
      rw [hrest, List.append_nil] at heq
      rw [hmatched]
      exact h.leadsTo_unmatched hs hidle (heq ▸ hpassed)
  | complete _ hmatched =>
      simp only [hmatched, hs.compositor _ hin, Bool.not_true, Bool.false_eq_true, if_false]
      exact ⟨rfl, h.tidy, h.stack, .restart hs hin hidle⟩

/-! ## Steps and runs -/

/-- A group that has reached its maximum is left. -/
theorem Walk.Tracks.leadsTo_over (hs : s.Tractable root) (h : Tracks s root w ns)
    (hover : w.isGroupOver s = true) : LeadsTo s root ns (Passage.step s ⟨w, last, []⟩) := by
  have hclosed : ¬IsOpen s w.counts w.ceilings w.here.group := by
    rw [← isGroupOver_eq_false_iff, hover]
    exact Bool.noConfusion
  obtain ⟨n, hn, hle⟩ := Occurs.isOver_iff.1 hover
  have hmin : (s.occurs w.hereMember).min.toNat ≤ w.reach w.hereMember :=
    (hs.built.min_le_max w.hereMember n hn).trans hle
  have hcloses : ClosesTo s root w.hereMember last ns (w.closeGroup s) :=
    .of_group hs h.tidy h.stack (h.seeks.idle h.stack fun hopen => absurd hopen hclosed)
      (h.stack.ends_over hs hclosed) (h.stack.gauge.passed hclosed) (.inr hmin)
  rw [Passage.step_of_over hover]
  exact hcloses.leadsTo

/-- Whatever is looked for next, what is still to come stays so, and nothing is reported. -/
theorem Walk.Tracks.leadsTo (hs : s.Tractable root)
    (hdepth : s.isWithin s.limits.maxModelDepth root = true) (h : Tracks s root w ns) :
    LeadsTo s root ns (Passage.step s ⟨w, last, []⟩) := by
  cases hover : w.isGroupOver s with
  | true => exact h.leadsTo_over hs hover
  | false =>
      have hopen := isGroupOver_eq_false_iff.1 hover
      cases hrest : w.here.rest with
      | nil => exact h.leadsTo_end hs hopen hrest
      | cons m rest =>
          cases m with
          | group sub => exact h.leadsTo_enter hs hdepth hopen hrest
          | element e => exact h.leadsTo_place hs hopen hrest rfl
          | wildcard y => exact h.leadsTo_place hs hopen hrest rfl

/-- A walk comes to a leaf or to the end of the root group, unless the budget is too small. -/
theorem Walk.Tracks.run_leadsTo (hs : s.Tractable root)
    (hdepth : s.isWithin s.limits.maxModelDepth root = true) : ∀ {fuel : Nat} {w : Walk}
    {last : Option Member}, Tracks s root w ns →
      LeadsTo s root ns (Passage.run s fuel ⟨w, last, []⟩) := by
  intro fuel
  induction fuel with
  | zero => exact fun _ => rfl
  | succ fuel ih =>
      intro w last h
      have hstep : LeadsTo s root ns (Passage.step s ⟨w, last, []⟩) := h.leadsTo hs hdepth
      unfold Passage.run
      generalize Passage.step s ⟨w, last, []⟩ = move at hstep
      cases move with
      | again p =>
          obtain ⟨w', last', violations⟩ := p
          obtain ⟨hnone, htracks⟩ := hstep
          obtain rfl : violations = [] := hnone
          exact ih htracks
      | placed p => exact hstep
      | ended p => exact hstep
      | failed failure p => exact hstep

end Conform
