import Conform.Proofs.Model.Load
import Conform.Proofs.Schema.Sample
/-!
# Walks come to their end

The budget of a schema of version 1.0 is more than any walk in it has before it. So no walk, however
it has come to where it is, goes on for ever: it comes to a leaf or to its end, unless it is stopped
at the bound on the depth of models.
-/

namespace Conform

/-- The bound on the depth of models is exceeded. -/
def Failure.ExceedsDepth (s : Schema) (f : Failure) : Prop :=
  ∃ depth group, f = .modelDepth depth s.limits.maxModelDepth group ∧
    s.limits.maxModelDepth < depth

theorem Failure.EndsWalk.exceedsDepth {s : Schema} {f : Failure} (h : f.EndsWalk s)
    (hne : f ≠ .endlessModel) : f.ExceedsDepth s := by
  cases h with
  | depth group hlt => exact ⟨_, group, rfl, hlt⟩
  | budget => exact absurd rfl hne

/-! ## Runs -/

namespace Passage

open Walk

variable {s : Schema}

theorem run_ne_again {p p' : Passage} : ∀ {fuel : Nat}, run s fuel p ≠ .again p'
  | 0 => nofun
  | fuel + 1 => by
    intro h
    unfold run at h
    split at h
    · exact run_ne_again h
    · rename_i hno
      exact hno _ h

/-- A run with more steps than the walk has before it comes to its end. -/
theorem nears_run (hs : s.Built) (hv : s.version = .v10) : ∀ {fuel : Nat} {p : Passage},
    p.walk.Lodged s → p.walk.load s false < fuel → (run s fuel p).Nears s p.walk
  | 0, _, _, hload => absurd hload (Nat.not_lt_zero _)
  | fuel + 1, p, hw, hload => by
    have hstep := nears_step hs hv p hw
    have hops := hops_step (s := s) p
    unfold run
    generalize p.step s = move at hstep hops
    cases hstep with
    | @again p' hnearer =>
        have hlt := hnearer.load_lt
        exact (nears_run hs hv (p := p') (hw.of_hops hs hops) (by omega)).after hlt.le
          hnearer.fades
    | placed hnearer hfresh => exact .placed hnearer hfresh
    | ended p => exact .ended p
    | failed hends hne => exact .failed hends hne

end Passage

/-! ## The budget -/

namespace Walk

variable {s : Schema}

/-- How many leaves are counted. -/
def stale (s : Schema) (w : Walk) : Nat :=
  s.particles.countP fun x => !x.isGroup && decide (0 < w.count x)

/-- What a walk has before it if no children come. An alternative that is counted still may make
every group around it begin anew. -/
def toGo (s : Schema) (w : Walk) (warm : Bool) : Nat :=
  w.load s warm + (s.groups.size + 1) * s.room * w.stale s

theorem Fades.stale_le {w w' : Walk} (h : w.Fades w') : w'.stale s ≤ w.stale s := by
  refine List.countP_mono_left fun x _ hx => ?_
  rw [Bool.and_eq_true, decide_eq_true_eq] at hx ⊢
  exact ⟨hx.1, hx.2.trans_le (h x (by simpa using hx.1))⟩

theorem Fades.stale_lt {w w' : Walk} (h : w.Fades w') {m : Member} (hm : m ∈ s.particles)
    (hleaf : m.isGroup = false) (hcount : 0 < w.count m) (hzero : w'.count m = 0) :
    w'.stale s < w.stale s := by
  obtain ⟨before, after, hparticles⟩ := List.append_of_mem hm
  have hpart : ∀ ms : List Member,
      ms.countP (fun x => !x.isGroup && decide (0 < w'.count x)) ≤
        ms.countP fun x => !x.isGroup && decide (0 < w.count x) := by
    intro ms
    refine List.countP_mono_left fun x _ hx => ?_
    rw [Bool.and_eq_true, decide_eq_true_eq] at hx ⊢
    exact ⟨hx.1, hx.2.trans_le (h x (by simpa using hx.1))⟩
  have hbefore := hpart before
  have hafter := hpart after
  simp only [stale, hparticles, List.countP_append, List.countP_cons, hleaf, hcount, hzero,
    Bool.not_false, Bool.true_and, decide_true, Nat.lt_irrefl, decide_false, if_true,
    Bool.false_eq_true, if_false]
  omega

/-- The groups around a walk have no more before them than fits the number of groups. -/
theorem Lodged.load_le (hs : s.Built) {w : Walk} (hw : w.Lodged s) (warm : Bool) :
    w.load s warm ≤ (s.groups.size + 1) * (3 * s.room) := by
  have hframes : ∀ fs : List Frame, (∀ f ∈ fs, f.rest <:+ items s w.version f.group) →
      ∀ warm, loadFrom s w.counts w.ceilings warm fs ≤ fs.length * (3 * s.room) := by
    intro fs
    induction fs with
    | nil => exact fun _ _ => Nat.zero_le _
    | cons f fs ih =>
        intro hrest warm
        have hmore := ih (fun f' hf' => hrest f' (List.mem_cons_of_mem _ hf'))
          (warm || f.isWarm w.counts)
        have hpass := passing_suffix (s := s) (hrest f List.mem_cons_self)
        have hroom := passing_items_lt_room hs w.version f.group
        have hfull := Bool.toNat_le (isUnfilled s w.counts w.ceilings f.group)
        have hmatched : (if f.matched = true then s.room else 0) ≤ s.room := by split <;> omega
        have hwarm : (if warm = true then s.room else 0) ≤ s.room := by split <;> omega
        rw [loadFrom, Frame.load, List.length_cons, Nat.succ_mul]
        omega
  have hlength := hw.around.length_le hs
  exact (hframes _ hw.rest warm).trans
    (Nat.mul_le_mul_right _ (by rw [List.length_cons]; omega))

/-- The budget is more than a walk has before it. -/
theorem Lodged.toGo_lt (hs : s.Built) {w : Walk} (hw : w.Lodged s) (warm : Bool) :
    w.toGo s warm < s.stepBudget := by
  have hload := hw.load_le hs warm
  have hstale : w.stale s ≤ s.particles.length := List.countP_le_length
  have hgroups : s.groups.size + 1 ≤ 2 ^ s.groups.size := Nat.lt_two_pow_self
  have hmul : (s.groups.size + 1) * s.room * w.stale s ≤
      (s.groups.size + 1) * s.room * s.particles.length := Nat.mul_le_mul_left _ hstale
  calc w.toGo s warm
      ≤ (s.groups.size + 1) * (3 * s.room) + (s.groups.size + 1) * s.room * s.particles.length :=
        Nat.add_le_add hload hmul
    _ = (s.groups.size + 1) * (2 * (s.particles.length + 1) * (s.particles.length + 3)) := by
        rw [Schema.room]
        ring
    _ < (s.groups.size + 1) * (4 * (s.particles.length + 2) ^ 2) := by
        refine Nat.mul_lt_mul_of_pos_left ?_ (Nat.succ_pos _)
        have hsquare : 4 * (s.particles.length + 2) ^ 2 =
            2 * (s.particles.length + 1) * (s.particles.length + 3) +
              (2 * s.particles.length ^ 2 + 8 * s.particles.length + 10) := by
          ring
        omega
    _ ≤ 2 ^ s.groups.size * (4 * (s.particles.length + 2) ^ 2) := Nat.mul_le_mul_right _ hgroups
    _ = 4 * (s.particles.length + 2) ^ 2 * 2 ^ s.groups.size := Nat.mul_comm ..
    _ ≤ s.stepBudget := s.sq_mul_pow_le_stepBudget

/-! ## Advancing -/

/-- A walk that leaves a leaf has no more before it. The leaf of a choice is counted no more, and
one of a sequence is known to have matched, unless the walk may be anywhere. -/
theorem toGo_closeLeaf (hs : s.Built) {w : Walk} (hw : w.Lodged s) {m : Member}
    (hleaf : m.isGroup = false) (hm : m ∈ s.particles) {warm : Bool}
    (hknown : warm = true ∨ ((s.group w.here.group).compositor = .sequence → 0 < w.count m →
      w.here.matched = true)) : (w.closeLeaf s m).2.toGo s false ≤ w.toGo s warm := by
  have hne : ∀ f ∈ w.here :: w.outer, m ≠ .group f.group := by
    rintro f - rfl
    cases hleaf
  have hfades : w.Fades (w.closeLeaf s m).2 := fades_closeItem w.outer m w
  have hstale := Nat.mul_le_mul_left ((s.groups.size + 1) * s.room) (hfades.stale_le (s := s))
  by_cases hpaid : warm = false ∧ 0 < w.count m ∧ (s.group w.here.group).compositor = .choice
  · obtain ⟨rfl, hcount, hchoice⟩ := hpaid
    have hload := load_closeItem hs w.outer m w true hw.around hne fun _ => .inl rfl
    have hzero : (w.closeLeaf s m).2.count m = 0 := by
      rw [closeLeaf, closeItem_choice hchoice]
      obtain ⟨counts', ceilings', heq, hzero, -⟩ :=
        closeInChoice_eq (s := s) (w := { w with outer := w.outer }) (m := m) hcount
      rw [heq]
      exact hzero
    have hlt := hfades.stale_lt hm hleaf hcount hzero
    have hpay := Nat.mul_le_mul_left ((s.groups.size + 1) * s.room) (Nat.succ_le_of_lt hlt)
    have htrue : loadFrom s w.counts w.ceilings true (w.here :: w.outer) ≤
        loadFrom s w.counts w.ceilings false (w.here :: w.outer) +
          (w.here :: w.outer).length * s.room := loadFrom_true_le _
    have hlength : (w.here :: w.outer).length * s.room ≤ (s.groups.size + 1) * s.room :=
      Nat.mul_le_mul_right _ (Nat.succ_le_succ (hw.around.length_le hs))
    rw [Nat.mul_succ] at hpay
    unfold toGo
    unfold load at hload ⊢
    unfold closeLeaf at hpay ⊢
    omega
  · have hload := load_closeItem hs w.outer m w warm hw.around hne fun hcount => by
      cases hcomp : (s.group w.here.group).compositor with
      | all => exact .inr (.inl rfl)
      | choice =>
          refine .inl ?_
          by_contra hcold
          exact hpaid ⟨by simpa using hcold, hcount, hcomp⟩
      | sequence => exact hknown.imp_right fun hmatched => .inr ⟨rfl, hmatched hcomp hcount⟩
    exact Nat.add_le_add hload hstale

/-- What a walk comes to that moves on: a leaf, its end, or the bound on the depth. -/
inductive MovesOn (s : Schema) (bound : Nat) : Except Failure (List Violation) × Walk → Prop
  | placed {violations : List Violation} {w : Walk} : w.toGo s false < bound → w.IsFresh s →
      MovesOn s bound (.ok violations, w)
  | ended {violations : List Violation} {w : Walk} : w.current = none →
      MovesOn s bound (.ok violations, w)
  | failed {f : Failure} {w : Walk} : f.ExceedsDepth s → MovesOn s bound (.error f, w)

theorem current_finish (p : Passage) : (finish s p).2.current = none := by
  unfold finish
  dsimp only
  split
  · rfl
  · split <;> rfl

theorem movesOn_moveOn (hs : s.Built) (hv : s.version = .v10) {w : Walk} (hw : w.Lodged s)
    {m : Member} (hleaf : m.isGroup = false) (hm : m ∈ s.particles) {warm : Bool}
    (hknown : warm = true ∨ ((s.group w.here.group).compositor = .sequence → 0 < w.count m →
      w.here.matched = true)) : MovesOn s (w.toGo s warm) (w.moveOn s m) := by
  have hclosed := toGo_closeLeaf hs hw hleaf hm hknown
  have hlodged := hw.of_hops hs (hops_closeLeaf (s := s) w m)
  cases hclose : w.closeLeaf s m with
  | mk missing w' =>
      rw [hclose] at hclosed hlodged
      cases missing with
      | none =>
          rw [moveOn_of_none hclose]
          exact .ended (current_finish _)
      | some missing =>
          rw [moveOn_of_some hclose]
          have hbudget : w'.load s false < s.stepBudget :=
            (Nat.le_add_right ..).trans_lt (hlodged.toGo_lt hs false)
          have hrun := Passage.nears_run hs hv
            (p := ⟨w', none, if missing then [⟨m, w.count m, [m]⟩] else []⟩) hlodged hbudget
          cases hmove : Passage.run s s.stepBudget
              ⟨w', none, if missing then [⟨m, w.count m, [m]⟩] else []⟩ with
          | again p => exact absurd hmove Passage.run_ne_again
          | ended p => exact .ended (current_finish p)
          | placed p =>
              rw [hmove] at hrun
              cases hrun with
              | placed hnearer hfresh =>
                  refine .placed (Nat.lt_of_lt_of_le ?_ hclosed) hfresh
                  exact Nat.add_lt_add_of_lt_of_le hnearer.load_lt
                    (Nat.mul_le_mul_left _ hnearer.fades.stale_le)
          | failed f p =>
              rw [hmove] at hrun
              cases hrun with
              | failed hends hne => exact .failed (hends.exceedsDepth hne)

theorem MovesOn.ends {bound : Nat} {r : Except Failure (List Violation) × Walk}
    (h : MovesOn s bound r) : (∃ violations, r.1 = .ok violations) ∨
      ∃ f, r.1 = .error f ∧ f.ExceedsDepth s := by
  cases h with
  | placed | ended => exact .inl ⟨_, rfl⟩
  | failed hdepth => exact .inr ⟨_, rfl, hdepth⟩

theorem advance_ends (hs : s.Built) (hv : s.version = .v10) {w : Walk} (hw : w.Lodged s)
    {m : Member} (hcurrent : w.current = some m) (matched : Bool) :
    (∃ violations, (w.advance s matched).1 = .ok violations) ∨
      ∃ f, (w.advance s matched).1 = .error f ∧ f.ExceedsDepth s := by
  obtain ⟨hleaf, hm⟩ := hw.current m hcurrent
  have htaken := hw.of_hops hs (hops_take (s := s) w m)
  simp only [advance, hcurrent]
  split
  · split
    · exact .inl ⟨_, rfl⟩
    · split
      · exact (movesOn_moveOn hs hv (htaken.of_hop hs (.rewind _)) hleaf hm (.inl rfl)).ends
      · exact (movesOn_moveOn hs hv htaken hleaf hm (.inl rfl)).ends
  · exact (movesOn_moveOn hs hv hw hleaf hm (.inl rfl)).ends

/-! ## Stopping -/

/-- A walk that has less before it than leaves are given it to pass is over then. -/
theorem stopFrom_ends (hs : s.Built) (hv : s.version = .v10) : ∀ {fuel : Nat}
    {violations : List Violation} {w : Walk} {warm : Bool}, w.Lodged s →
    (warm = true ∨ w.IsFresh s) → w.toGo s warm < fuel →
      (∃ more, (w.stopFrom s fuel violations).1 = .ok more) ∧
        (w.stopFrom s fuel violations).2.current = none ∨
      ∃ f, (w.stopFrom s fuel violations).1 = .error f ∧ f.ExceedsDepth s
  | 0, _, _, _, _, _, hfuel => absurd hfuel (Nat.not_lt_zero _)
  | fuel + 1, violations, w, warm, hw, hfresh, hfuel => by
    unfold stopFrom
    cases hcurrent : w.current with
    | none =>
        rw [if_pos (by simp [isEnded, hcurrent])]
        exact .inl ⟨⟨_, rfl⟩, hcurrent⟩
    | some m =>
        rw [if_neg (by simp [isEnded, hcurrent])]
        obtain ⟨hleaf, hm⟩ := hw.current m hcurrent
        have hmoved : MovesOn s (w.toGo s warm) (w.moveOn s m) := by
          refine movesOn_moveOn hs hv hw hleaf hm (hfresh.imp_right fun hfresh hseq hcount => ?_)
          obtain ⟨m', hm', hzero⟩ := hfresh
          rw [hcurrent] at hm'
          rw [← Option.some.inj hm'] at hzero
          have hcount0 := hzero hseq
          omega
        have hlodged := hw.of_hops hs (hops_moveOn (s := s) w m)
        rw [advance_pass hcurrent]
        generalize w.moveOn s m = moved at hmoved hlodged
        cases hmoved with
        | placed hlt hfresh =>
            have hknown : false = true ∨ IsFresh s _ := .inr hfresh
            exact stopFrom_ends hs hv hlodged hknown (by omega)
        | ended hended =>
            have hstopped : ∀ (more : List Violation) (w' : Walk), w'.current = none →
                w'.stopFrom s fuel more = (.ok more, w') := by
              intro more w' hw'
              have hended : w'.isEnded = true := by simp [isEnded, hw']
              cases fuel <;> simp [stopFrom, hended]
            dsimp only
            rw [hstopped _ _ hended]
            exact .inl ⟨⟨_, rfl⟩, hended⟩
        | failed hdepth => exact .inr ⟨_, rfl, hdepth⟩

theorem stop_ends (hs : s.Built) (hv : s.version = .v10) {w : Walk} (hw : w.Lodged s) :
    (∃ violations, (w.stop s).1 = .ok violations) ∧ (w.stop s).2.current = none ∨
      ∃ f, (w.stop s).1 = .error f ∧ f.ExceedsDepth s :=
  stopFrom_ends hs hv hw (.inl rfl) (hw.toGo_lt hs true)

/-! ## Starting -/

/-- What it takes to find the first leaf. -/
def toSeek (s : Schema) (w : Walk) : Nat :=
  ((w.here :: w.outer).map fun f => passing s f.rest + 1).sum

theorem seekFirst_ends (hs : s.Built) : ∀ {fuel : Nat} {w : Walk}, w.toSeek s < fuel →
    ∀ f, (w.seekFirst s fuel).1 = .error f → f.ExceedsDepth s
  | 0, _, hfuel => absurd hfuel (Nat.not_lt_zero _)
  | fuel + 1, w, hfuel => by
    intro f h
    unfold seekFirst at h
    cases hnext : w.nextItem s with
    | mk item w' =>
      obtain ⟨rest, hsuffix, rfl⟩ := nextItem_suffix hnext
      have hpass := passing_suffix (s := s) hsuffix
      simp only [toSeek, List.map_cons, List.sum_cons] at hfuel
      rw [hnext] at h
      cases item with
      | none =>
          dsimp only at h
          cases houter : w.outer with
          | nil =>
              simp only [leave?, houter] at h
              cases h
          | cons f' outer =>
              simp only [leave?, houter] at h
              refine seekFirst_ends hs ?_ f h
              simp only [houter, List.map_cons, List.sum_cons] at hfuel
              simp only [toSeek, List.map_cons, List.sum_cons]
              omega
      | some m =>
          cases m with
          | element e => cases h
          | wildcard x => cases h
          | group g =>
              have hbulk := s.bulk_pos (.group g)
              have hless : passing s rest + 2 * s.bulk (.group g) ≤ passing s w.here.rest := by
                simp only [Option.toList_some, List.singleton_append, passing, List.map_cons,
                  List.sum_cons] at hpass ⊢
                omega
              dsimp only at h
              split at h
              · refine seekFirst_ends hs ?_ f h
                simp only [toSeek, List.map_cons, List.sum_cons]
                omega
              · split at h
                · rename_i henter
                  cases h
                  obtain ⟨hends, hne⟩ := endsWalk_of_enter henter
                  exact hends.exceedsDepth hne
                · rename_i w' henter
                  unfold enter at henter
                  split at henter <;> cases henter
                  have hroom := passing_items_lt hs w.version g
                  refine seekFirst_ends hs ?_ f h
                  simp only [toSeek, List.map_cons, List.sum_cons]
                  omega

/-- The budget is more than it takes to find the first leaf of a walk that is started. -/
theorem toSeek_clear_lt (hs : s.Built) (w : Walk) : (w.clear s).toSeek s < s.stepBudget := by
  have hload := (lodged_clear (s := s) w).toGo_lt hs false
  simp only [toGo, load, loadFrom, Frame.load, clear] at hload
  simp only [toSeek, clear, List.map_cons, List.map_nil, List.sum_cons, List.sum_nil]
  omega

theorem restart_ends (hs : s.Built) (w : Walk) :
    ∀ f, (w.restart s).1 = .error f → f.ExceedsDepth s :=
  seekFirst_ends hs (toSeek_clear_lt hs w)

/-! ## Walks that are reached -/

/-- A walk that has come about by the operations, which may have failed. -/
inductive Reachable (s : Schema) : Walk → Prop
  | start {root : GroupId} {v : Version} {w : Walk} : Walk.start s root v = .ok w → Reachable s w
  | advance {w : Walk} (matched : Bool) : Reachable s w → Reachable s (w.advance s matched).2
  | stop {w : Walk} : Reachable s w → Reachable s (w.stop s).2
  | restart {w : Walk} : Reachable s w → Reachable s (w.restart s).2
  | clear {w : Walk} : Reachable s w → Reachable s (w.clear s)

theorem Reachable.lodged (hs : s.Built) {w : Walk} (h : Reachable s w) : w.Lodged s := by
  induction h with
  | @start root v w hstart =>
      exact .of_hops hs (hops_start hstart)
        (lodged_clear ⟨root, v, default, [], Tally.zero, Tally.zero, none⟩)
  | advance matched _ ih => exact ih.of_hops hs (hops_advance _ matched)
  | stop _ ih => exact ih.of_hops hs (hops_stopFrom _ _ _)
  | restart _ ih => exact (lodged_clear _).of_hops hs (hops_seekFirst _ _)
  | clear _ ih => exact lodged_clear _

end Walk

/-- Steps have come to their end: on a leaf, where no group is left, or at the bound on the depth. -/
inductive Move.Ends (s : Schema) : Move → Prop
  | placed {p : Passage} {m : Member} : p.walk.current = some m → m.isGroup = false →
      Ends s (.placed p)
  | ended (p : Passage) : Ends s (.ended p)
  | failed {f : Failure} {p : Passage} : f.ExceedsDepth s → Ends s (.failed f p)

namespace Schema

variable {s : Schema}

theorem run_ends (hs : s.Built) (hv : s.version = .v10) {p : Passage} (hw : p.walk.Lodged s) :
    (p.run s s.stepBudget).Ends s := by
  have hbudget : p.walk.load s false < s.stepBudget :=
    (Nat.le_add_right ..).trans_lt (hw.toGo_lt hs false)
  have hrun := Passage.nears_run hs hv hw hbudget
  have hlodged := hw.of_hops hs (Passage.hops_run (s := s) s.stepBudget p)
  cases hmove : p.run s s.stepBudget with
  | again p => exact absurd hmove Passage.run_ne_again
  | ended p => exact .ended p
  | placed p =>
      rw [hmove] at hrun hlodged
      cases hrun with
      | placed _ hfresh =>
          obtain ⟨m, hm, -⟩ := hfresh
          exact .placed hm (hlodged.current m hm).1
  | failed f p =>
      rw [hmove] at hrun
      cases hrun with
      | failed hends hne => exact .failed (hends.exceedsDepth hne)

/-- In a schema of version 1.0 every walk ends. Wherever it is, its steps come to a leaf or to the
end of the model, its first leaf is found anew, and it is over once it is told to stop, unless it is
stopped at the bound on the depth of models. -/
theorem walks_end (hs : s.Built) (hv : s.version = .v10) :
    (∀ root v f, Walk.start s root v = .error f → f.ExceedsDepth s) ∧
    ∀ w, Walk.Reachable s w →
      (∀ p : Passage, Walk.Hops s w p.walk → (p.run s s.stepBudget).Ends s) ∧
      (∀ matched, w.current ≠ none → (∃ violations, (w.advance s matched).1 = .ok violations) ∨
        ∃ f, (w.advance s matched).1 = .error f ∧ f.ExceedsDepth s) ∧
      (∀ f, (w.restart s).1 = .error f → f.ExceedsDepth s) ∧
      ((∃ violations, (w.stop s).1 = .ok violations) ∧ (w.stop s).2.current = none ∨
        ∃ f, (w.stop s).1 = .error f ∧ f.ExceedsDepth s) := by
  refine ⟨fun root v f h => ?_, fun w hw => ?_⟩
  · unfold Walk.start at h
    dsimp only at h
    split at h
    · cases h
    · rename_i hrestart
      cases h
      exact Walk.restart_ends hs _ f (congrArg Prod.fst hrestart)
  · have hlodged := hw.lodged hs
    refine ⟨fun p hops => run_ends hs hv (hlodged.of_hops hs hops), fun matched hcurrent => ?_,
      Walk.restart_ends hs w, Walk.stop_ends hs hv hlodged⟩
    obtain ⟨m, hm⟩ := Option.ne_none_iff_exists'.1 hcurrent
    exact Walk.advance_ends hs hv hlodged hm matched

end Schema

/-- Any number of times an empty choice, and a sequence of any number of `a`. -/
def endingSample : Components :=
  (((Components.withElements .v10 [("a", .zeroOrMore)]).withGroup .choice .zeroOrMore []).withGroup
    .sequence .zeroOrMore [.element ⟨0⟩]).withGroup .sequence .zeroOrMore [.group ⟨0⟩, .group ⟨1⟩]

theorem walks_end_sample : endingSample.schema.Built ∧ endingSample.schema.version = .v10 ∧
    ∃ w, Walk.Reachable endingSample.schema w ∧ w.current = some (.element ⟨0⟩) ∧
      (∃ violations, (w.stop endingSample.schema).1 = .ok violations) ∧
      (w.stop endingSample.schema).2.current = none := by
  have hs : endingSample.schema.Built :=
    ((((Components.assembled_withElements ..).withGroup ..).withGroup ..).withGroup ..).built rfl
  have hv : endingSample.schema.version = .v10 := rfl
  have hstart : Walk.start endingSample.schema ⟨2⟩ .v10 = .ok ⟨⟨2⟩, .v10, ⟨⟨1⟩, [], false⟩,
      [⟨⟨2⟩, [], false⟩], Tally.zero, Tally.zero, some (.element ⟨0⟩)⟩ := by
    decide +kernel
  refine ⟨hs, hv, _, .start hstart, rfl, ?_⟩
  obtain ⟨-, -, -, hstop⟩ := (Schema.walks_end hs hv).2 _ (.start hstart)
  rcases hstop with hstop | ⟨f, hf, depth, group, rfl, -⟩
  · exact hstop
  · have hok : (Walk.stop endingSample.schema ⟨⟨2⟩, .v10, ⟨⟨1⟩, [], false⟩,
        [⟨⟨2⟩, [], false⟩], Tally.zero, Tally.zero, some (.element ⟨0⟩)⟩).1.isOk = true := by
      decide +kernel
    rw [hf] at hok
    cases hok

/-- An `a`, and then a `b` that is six groups deep. -/
def deepSample : Components :=
  let c := Components.withElements .v10 [("a", .optional), ("b", .optional)]
  let c := { c with limits := { c.limits with maxModelDepth := 5 } }
  let c := c.withGroup .sequence .once [.element ⟨1⟩]
  let c := c.withGroup .sequence .once [.group ⟨0⟩]
  let c := c.withGroup .sequence .once [.group ⟨1⟩]
  let c := c.withGroup .sequence .once [.group ⟨2⟩]
  let c := c.withGroup .sequence .once [.group ⟨3⟩]
  let c := c.withGroup .sequence .once [.group ⟨4⟩]
  c.withGroup .sequence .once [.element ⟨0⟩, .group ⟨5⟩]

/-- A walk that is stopped at the bound on the depth is not over. -/
theorem stop_too_deep : deepSample.schema.Built ∧ deepSample.schema.version = .v10 ∧
    ∃ w, Walk.Reachable deepSample.schema w ∧
      (w.stop deepSample.schema).1 = .error (.modelDepth 6 5 (some "sequence group#6")) ∧
      (w.stop deepSample.schema).2.current = some (.element ⟨0⟩) := by
  have hassembled : deepSample.Assembled := by
    unfold deepSample
    exact (((((((Components.Assembled.limits _ (Components.assembled_withElements ..)).withGroup
      ..).withGroup ..).withGroup ..).withGroup ..).withGroup ..).withGroup ..).withGroup ..
  have hs : deepSample.schema.Built := hassembled.built rfl
  have hstart : Walk.start deepSample.schema ⟨6⟩ .v10 = .ok ⟨⟨6⟩, .v10,
      ⟨⟨6⟩, [.group ⟨5⟩], false⟩, [], Tally.zero, Tally.zero, some (.element ⟨0⟩)⟩ := by
    decide +kernel
  exact ⟨hs, rfl, _, .start hstart, by decide +kernel, by decide +kernel⟩

end Conform
