import Conform.Proofs.Model.Acceptance
import Conform.Proofs.Model.Breaking
import Conform.Proofs.Model.Staying
/-!
# Words are accepted

A walk through a steady model takes the children of every word that is not empty, and is over at its
end without a violation. In other models a walk may miss a word, since it never goes back.
-/

namespace Conform

open Components Walk Schema

variable {s : Schema} {root g : GroupId} {m x : Member} {w : Walk} {ns names : List QName}
  {n : QName} {index : Nat}

/-! ## The end of a walk -/

/-- A walk that awaits no child is over without a violation. -/
theorem Walk.Awaits.stopFrom (hs : s.Tractable root)
    (hdepth : s.isWithin s.limits.maxModelDepth root = true) : ∀ {fuel : Nat} {w : Walk},
    Awaits s root w [] → (∃ w', w.stopFrom s fuel [] = (.ok [], w')) ∨
      (w.stopFrom s fuel []).1 = .error .endlessModel := by
  intro fuel
  induction fuel with
  | zero =>
      intro w _
      unfold Walk.stopFrom
      split
      · exact .inl ⟨w, rfl⟩
      · exact .inr rfl
  | succ fuel ih =>
      intro w h
      unfold Walk.stopFrom
      split
      · exact .inl ⟨w, rfl⟩
      rename_i hended
      rcases h with ⟨m, htrack⟩ | ⟨hnone, -⟩
      · have hgoes := htrack.pass hs hdepth (by simp)
        generalize w.advance s false = r at hgoes
        obtain ⟨result, w'⟩ := r
        cases result with
        | ok violations =>
            obtain ⟨hquiet, hawaits⟩ := hgoes
            obtain rfl : violations = [] := hquiet
            exact ih hawaits
        | error failure =>
            obtain rfl : failure = .endlessModel := hgoes
            exact .inr rfl
      · rw [isEnded, hnone] at hended
        exact absurd rfl hended

namespace Matching

/-! ## Children -/

/-- A child is attributed to a leaf without an issue. -/
theorem attributeFrom_awaits (hs : s.Tractable root)
    (hdepth : s.isWithin s.limits.maxModelDepth root = true) : ∀ {fuel : Nat} {m : Matching},
    Awaits s root m.walk (n :: ns) →
      (∃ leaf m', attributeFrom s index n fuel m = .ok (leaf, m') ∧ m'.issues = m.issues ∧
        Awaits s root m'.walk ns) ∨ attributeFrom s index n fuel m = .error .endlessModel := by
  intro fuel
  induction fuel with
  | zero => exact fun _ => .inr rfl
  | succ fuel ih =>
      intro m h
      obtain ⟨l, htrack⟩ : ∃ l, OnTrack s root m.walk l (n :: ns) := by
        rcases h with htrack | ⟨-, hnil⟩
        · exact htrack
        · cases hnil
      simp only [attributeFrom, htrack.current]
      by_cases hpasses : s.passes l n = true
      · have hgoes := htrack.take hs hdepth hpasses
        rw [if_pos hpasses]
        generalize m.walk.advance s true = r at hgoes
        obtain ⟨result, w'⟩ := r
        cases result with
        | ok violations =>
            obtain ⟨hquiet, hawaits⟩ := hgoes
            obtain rfl : violations = [] := hquiet
            exact .inl ⟨_, _, rfl, List.append_nil _, hawaits⟩
        | error failure =>
            obtain rfl : failure = .endlessModel := hgoes
            exact .inr rfl
      · have hgoes := htrack.pass hs hdepth fun n' hn' => by
          obtain rfl := Option.some.inj hn'
          simpa using hpasses
        rw [if_neg hpasses]
        generalize m.walk.advance s false = r at hgoes
        obtain ⟨result, w'⟩ := r
        cases result with
        | ok violations =>
            obtain ⟨hquiet, hawaits⟩ := hgoes
            obtain rfl : violations = [] := hquiet
            exact ih (m := { m with walk := w' }) hawaits
        | error failure =>
            obtain rfl : failure = .endlessModel := hgoes
            exact .inr rfl

/-- The children of which a walk awaits no others are no issues. -/
theorem children_awaits (hs : s.Tractable root) (hv : s.version = .v10)
    (hdepth : s.isWithin s.limits.maxModelDepth root = true) : ∀ {names : List QName}
    {index : Nat} {m : Matching}, m.IsKnown s → Awaits s root m.walk names →
      (children s index m names).issues = .ok m.issues
  | [], index, m, hm, h => by
    have hstop : ∃ w', m.walk.stop s = (.ok [], w') := by
      refine (h.stopFrom hs hdepth).resolve_right fun herror => ?_
      rcases stop_ends hs.built hv hm.walk.lodged with ⟨⟨violations, hok⟩, -⟩ |
        ⟨f, hf, depth, group, heq, -⟩
      · rw [Walk.stop, herror] at hok
        cases hok
      · rw [Walk.stop, herror, heq] at hf
        cases hf
    obtain ⟨w', hstop⟩ := hstop
    simp [children, finish, hstop, bind, Except.bind, pure, Except.pure]
  | name :: rest, index, m, hm, h => by
    have hcases : (∃ leaf m', m.child s index name = .ok (leaf, m') ∧ m'.issues = m.issues ∧
        Awaits s root m'.walk rest) ∨ m.child s index name = .error .endlessModel :=
      attributeFrom_awaits hs hdepth h
    rcases hcases with ⟨leaf, m', hchild, hissues, hawaits⟩ | herror
    · have hknown := (attributeFrom_known hs.built hm hchild).2.1
      simp only [children, hchild]
      rw [children_awaits hs hv hdepth hknown hawaits, hissues]
    · have hends := child_fails hs.built hm.walk.lodged herror
      rcases hends with ⟨depth, group, heq, -⟩ | ⟨hno, -⟩
      · cases heq
      · rw [hv] at hno
        cases hno

end Matching

/-! ## The start of a walk -/

/-- Before the first child nothing is counted. -/
theorem Schema.Settled.zero (hempty : s.isEmptiable m = true) :
    Settled s root Tally.zero Tally.zero m :=
  ⟨.start rfl rfl, fun _ _ _ => Nat.zero_le _, fun _ => hempty⟩

/-- Groups that a walk passes over at the start can be empty. -/
theorem Schema.Tractable.passes_over (hs : s.Tractable root) (hin : s.Contains root (.group g))
    (hmembers : (s.group g).occurs.max ≠ some 0 → ∀ x ∈ (s.group g).members,
      s.isEmptiable x = true ∧ Passed s root x ns) :
    s.isEmptiable (.group g) = true ∧ Passed s root (.group g) ns := by
  by_cases hmax : (s.group g).occurs.max = some 0
  · refine ⟨hs.built.isEmptiable_of_min (Nat.le_zero.1 (hs.built.min_le_max (.group g) 0 hmax)), ?_⟩
    exact fun n _ u hword => max_ne_zero_of_words hword hmax
  · exact ⟨hs.built.isEmptiable_of_forall fun x hx => (hmembers hmax x hx).1,
      passed_group (hs.not_once hin fun x hx => (hmembers hmax x hx).2)⟩

/-- The first leaf is looked for. Groups that are passed over can be empty. -/
theorem Walk.seekFirst_awaits (hs : s.Tractable root)
    (hdepth : s.isWithin s.limits.maxModelDepth root = true) (hne : names ≠ [])
    (hword : s.Words (s.freed root) (.group root) names) {root' : GroupId} {v : Version} :
    ∀ {fuel : Nat} (f : Frame) {outer : List Frame} (done : List Member),
      Sought s root f.group outer → Stack s root Tally.zero Tally.zero f.group outer →
      Idle s root Tally.zero f.group outer names → f.matched = false →
      ((s.group f.group).occurs.max = some 0 → f.rest = []) →
      ((s.group f.group).occurs.max ≠ some 0 → (s.group f.group).members = done ++ f.rest) →
      (∀ x ∈ done, s.isEmptiable x = true ∧ Passed s root x names) →
      (∃ w', seekFirst s fuel ⟨root', v, f, outer, Tally.zero, Tally.zero, none⟩ = (.ok (), w') ∧
        Awaits s root w' names) ∨
      (seekFirst s fuel ⟨root', v, f, outer, Tally.zero, Tally.zero, none⟩).1 =
        .error .endlessModel := by
  intro fuel
  induction fuel with
  | zero => exact fun _ _ _ _ _ _ _ _ _ _ => .inr rfl
  | succ fuel ih =>
      intro f outer done hsought hstack hidle hmatched hnone hmembers hdone
      have hin := hstack.contains
      rw [seekFirst, nextItem_of_ne_all (hs.compositor _ hin)]
      dsimp only
      cases hrest : f.rest with
      | nil =>
          have hover : s.isEmptiable (.group f.group) = true ∧
              Passed s root (.group f.group) names := by
            refine hs.passes_over hin fun hmax x hx => hdone x ?_
            rw [hmembers hmax, hrest, List.append_nil] at hx
            exact hx
          cases hsought with
          | root =>
              -- the word begins with a name
              obtain ⟨n, u, rfl⟩ := List.exists_cons_of_ne_nil hne
              exact absurd hword (hover.2 n rfl u)
          | @nested _ f' outer' done' hsought' hmembers' hdone' hmatched' =>
            cases hstack with
            | nested hstack' hopen =>
            cases hidle with
            | going hlive =>
                rcases hlive with hpos | hyes
                · exact absurd hpos (Nat.lt_irrefl 0)
                · rw [hmatched'] at hyes
                  cases hyes
            | @fresh _ _ _ before _ _ _ heq hpassed hidle' =>
                obtain rfl : before = done' :=
                  List.append_cancel_right (heq.symm.trans hmembers')
                refine ih f' (before ++ [.group f.group]) hsought' hstack' hidle' hmatched'
                  (fun hzero => absurd hzero hopen.max_ne_zero) (fun _ => ?_) fun x hx => ?_
                · rw [hmembers', List.append_assoc]
                  rfl
                · rcases List.mem_append.1 hx with hx | hx
                  · exact ⟨hdone' x hx, hpassed x hx⟩
                  · exact List.mem_singleton.1 hx ▸ hover
      | cons x rest =>
          have hmax : (s.group f.group).occurs.max ≠ some 0 := by
            intro hzero
            rw [hnone hzero] at hrest
            cases hrest
          have hsplit : (s.group f.group).members = done ++ x :: rest := hrest ▸ hmembers hmax
          have hmem : x ∈ (s.group f.group).members := by simp [hsplit]
          have hopen : IsOpen s Tally.zero Tally.zero f.group := fun _ hn =>
            Occurs.max_pos (o := (s.group f.group).occurs) hmax hn
          have hholds : Holds s root Tally.zero Tally.zero ⟨f.group, rest, f.matched⟩ done x :=
            ⟨hsplit, fun _ y hy => .zero (hdone y hy).1⟩
          have hstand : x.isGroup = false → Awaits s root
              ⟨root', v, ⟨f.group, rest, f.matched⟩, outer, Tally.zero, Tally.zero, some x⟩ names :=
            fun hleaf => .inl ⟨x, rfl, hleaf, ⟨fun _ _ => rfl, fun _ _ _ _ _ _ => rfl⟩, hstack,
              hopen, done, hholds, .fresh hmatched rfl (fun y hy => (hdone y hy).2) hidle⟩
          cases x with
          | element e => exact .inl ⟨_, rfl, hstand rfl⟩
          | wildcard y => exact .inl ⟨_, rfl, hstand rfl⟩
          | group sub =>
              dsimp only
              split
              · rename_i hempty
                have hover : s.isEmptiable (.group sub) = true ∧ Passed s root (.group sub) names :=
                  hs.passes_over (hin.member hmem) fun _ y hy => by
                    rw [List.isEmpty_iff.1 hempty] at hy
                    cases hy
                refine ih ⟨f.group, rest, f.matched⟩ (done ++ [.group sub]) hsought hstack hidle
                  hmatched (fun hzero => absurd hzero hmax) (fun _ => ?_) fun y hy => ?_
                · rw [hsplit, List.append_assoc]
                  rfl
                · rcases List.mem_append.1 hy with hy | hy
                  · exact hdone y hy
                  · exact List.mem_singleton.1 hy ▸ hover
              · unfold enter
                dsimp only
                rw [if_neg (by simp [hstack.room hdepth hmem])]
                refine ih _ [] (.nested (f := ⟨f.group, rest, f.matched⟩) hsought hsplit
                  (fun y hy => (hdone y hy).1) hmatched) (.nested hstack hopen hholds
                    (fun hyes => ?_) (.start rfl rfl)) (.fresh rfl hmatched hsplit
                      (fun y hy => (hdone y hy).2) hidle) rfl (fun hzero => ?_) (fun hsubmax => ?_)
                  (List.forall_mem_nil _)
                · rw [show f.matched = true from hyes] at hmatched
                  cases hmatched
                · simp [items, Occurs.isEmpty, hzero]
                · exact (items_of_ne_all (hs.compositor _ (hin.member hmem)) hsubmax).symm

/-- A walk through a steady model starts, and awaits any word that is not empty. -/
theorem Walk.start_awaits (hs : s.Tractable root)
    (hdepth : s.isWithin s.limits.maxModelDepth root = true) (hne : names ≠ [])
    (hword : s.Words (s.freed root) (.group root) names) (v : Version) :
    ∃ w, Walk.start s root v = .ok w ∧ Awaits s root w names := by
  have hidle : Idle s root Tally.zero root [] names := by
    refine .root (fun _ => hne) ?_
    cases hword with
    | @intro _ k _ hadmits htimes =>
        exact ⟨k, names, [], (List.append_nil _).symm, htimes, (Nat.zero_add k).symm ▸ hadmits, rfl⟩
  obtain ⟨r, hr⟩ : ∃ r, seekFirst s s.stepBudget
      ⟨root, v, ⟨root, items s v root, false⟩, [], Tally.zero, Tally.zero, none⟩ = r := ⟨_, rfl⟩
  have hseek : (∃ w', r = (.ok (), w') ∧ Awaits s root w' names) ∨ r.1 = .error .endlessModel := by
    rw [← hr]
    exact seekFirst_awaits hs hdepth hne hword _ [] .root (.root (.start rfl rfl)) hidle rfl
      (fun hzero => by simp [items, Occurs.isEmpty, hzero])
      (fun hmax => (items_of_ne_all (hs.compositor root .root) hmax).symm) (List.forall_mem_nil _)
  obtain ⟨result, w⟩ := r
  rcases hseek with ⟨w', heq, hawaits⟩ | herror
  · cases heq
    refine ⟨w, ?_, hawaits⟩
    simp only [Walk.start, restart, clear, hr]
  · obtain rfl : result = .error .endlessModel := herror
    have hstart : Walk.start s root v = .error .endlessModel := by
      simp only [Walk.start, restart, clear, hr]
    obtain ⟨depth, group, heq, -⟩ := start_fails hs.built hstart
    cases heq

/-- A group with a word that is not empty has members. -/
theorem Schema.Built.not_isVoid_of_words (hs : s.Built) (hne : names ≠ [])
    (hword : s.Words (s.freed root) m names) : ¬s.IsVoid m := by
  obtain ⟨n, u, rfl⟩ := List.exists_cons_of_ne_nil hne
  exact (hword.has hs n List.mem_cons_self).not_isVoid hs

/-- A group with members is there. -/
theorem Schema.mem_particles_of_not_isVoid (h : ¬s.IsVoid (.group g)) : .group g ∈ s.particles := by
  have hne : (s.group g).members ≠ [] := fun hnil => h ⟨g, rfl, hnil⟩
  obtain ⟨x, hx⟩ := List.exists_mem_of_ne_nil _ hne
  exact mem_particles (m := .group g) (decide_eq_true (index_lt_size hx))

/-- The words of a steady model, but the empty one, have no issues. -/
theorem Schema.Tractable.issues_eq_nil (hs : s.Tractable root) (hv : s.version = .v10)
    (hdepth : s.isWithin s.limits.maxModelDepth root = true) (hne : names ≠ [])
    (hword : s.Words (s.freed root) (.group root) names) : s.issues root names = .ok [] := by
  obtain ⟨w, hstart, hawaits⟩ := start_awaits hs hdepth hne hword s.version
  have hknown : Matching.IsKnown s ⟨w, false, []⟩ :=
    ⟨grounded_start hs.built (mem_particles_of_not_isVoid hs.not_isVoid) hstart,
      List.forall_mem_nil _⟩
  have hchildren : (Matching.children s 0 ⟨w, false, []⟩ names).issues = .ok [] :=
    Matching.children_awaits hs hv hdepth hknown hawaits
  simp only [issues, attribution, Matching.start, hstart, bind, Except.bind, pure, Except.pure]
  exact hchildren

/-! ## Members in any order -/

/-- In a row of leaves with different names, the names are those of the leaves, and there are as many
of each leaf as the bounds admit. -/
theorem Components.Row.counts {b : Member → Occurs} : ∀ {ms : List Member} {w : List QName},
    s.Row b ms w → ms.Nodup → (∀ m ∈ ms, m.isGroup = false) →
    (∀ m ∈ ms, ∀ m' ∈ ms, ∀ n, s.passes m n = true → s.passes m' n = true → m = m') →
    (∀ n ∈ w, ∃ m ∈ ms, s.passes m n = true) ∧
      ∀ m ∈ ms, (b m).Admits (w.countP (s.passes m))
  | _, _, .nil, _, _, _ => ⟨List.forall_mem_nil _, List.forall_mem_nil _⟩
  | m :: ms, _, .cons (u := u) (v := v) hword hrest, hnodup, hleaf, hunique => by
    obtain ⟨hnotMem, hnodup'⟩ := List.nodup_cons.1 hnodup
    obtain ⟨hnames, hadmits⟩ := hrest.counts hnodup'
      (fun x hx => hleaf x (List.mem_cons_of_mem _ hx))
      fun x hx y hy => hunique x (List.mem_cons_of_mem _ hx) y (List.mem_cons_of_mem _ hy)
    have hm := hleaf m List.mem_cons_self
    have hown : ∀ n ∈ u, s.passes m n = true := by
      cases hword with
      | intro _ htimes => exact ((times_leaf_iff hm).1 htimes).2
    -- no other leaf matches a name of the first one
    have hother : ∀ n, s.passes m n = true → ∀ x ∈ ms, s.passes x n = false := by
      intro n hn x hx
      by_contra hyes
      have heq := hunique m List.mem_cons_self x (List.mem_cons_of_mem _ hx) n hn (by simpa using hyes)
      exact hnotMem (heq ▸ hx)
    refine ⟨fun n hn => ?_, fun x hx => ?_⟩
    · rcases List.mem_append.1 hn with hn | hn
      · exact ⟨m, List.mem_cons_self, hown n hn⟩
      · obtain ⟨x, hx, hpasses⟩ := hnames n hn
        exact ⟨x, List.mem_cons_of_mem _ hx, hpasses⟩
    · rw [List.countP_append]
      rcases List.mem_cons.1 hx with rfl | hx
      · have hlater : v.countP (s.passes x) = 0 := by
          refine List.countP_eq_zero.2 fun n hn hyes => ?_
          obtain ⟨y, hy, hpasses⟩ := hnames n hn
          rw [hother n hyes y hy] at hpasses
          cases hpasses
        rw [hlater, List.countP_eq_length.2 hown]
        exact hword.admits_length hm
      · have hfirst : u.countP (s.passes x) = 0 :=
          List.countP_eq_zero.2 fun n hn hyes => by
            rw [hother n (hown n hn) x hx] at hyes
            cases hyes
        rw [hfirst, Nat.zero_add]
        exact hadmits x hx

namespace Schema

/-- The words of an `all` group, but the empty one, have no issues. -/
theorem Built.issues_of_all (hs : s.Built) (hv : s.version = .v10)
    (hall : (s.group root).compositor = .all) (hdistinct : s.DistinctElements (s.leaves root))
    (hne : names ≠ []) (hword : s.Words s.occurs (.group root) names) :
    s.issues root names = .ok [] := by
  have hg := hs.isAllOfElements hv hall hdistinct
  obtain ⟨ms, hperm, hrow⟩ : ∃ ms, ms.Perm (s.group root).members ∧ s.Row s.occurs ms names := by
    have hle : ∀ k, (s.occurs (.group root)).Admits k → k ≤ 1 := fun k hk => hk.2 1 hg.max
    cases hword with
    | @intro _ k _ hadmits htimes =>
        have hk := hle k hadmits
        cases htimes with
        | zero => exact absurd rfl hne
        | succ honce hrest =>
            obtain rfl := Nat.eq_zero_of_le_zero (Nat.le_of_succ_le_succ hk)
            rw [hrest.eq_nil, List.append_nil]
            cases honce with
            | leaf hpasses => cases hpasses
            | sequence hsequence => cases hall.symm.trans hsequence
            | choice hchoice => cases hall.symm.trans hchoice
            | all _ hperm hrow => exact ⟨_, hperm, hrow⟩
  obtain ⟨hnames, hadmits⟩ := hrow.counts (hperm.nodup_iff.2 hg.distinct.nodup)
    (fun m hm => hg.distinct.isGroup_eq_false (hperm.mem_iff.1 hm))
    fun m hm m' hm' n hn hn' =>
      hg.distinct.eq_of_passes (hperm.mem_iff.1 hm) (hperm.mem_iff.1 hm') hn hn'
  obtain ⟨issues, hissues, hiff⟩ := s.issues_all_iff hs hg names
  rw [hissues, hiff.2 (.inl ⟨fun n hn => ?_, fun m hm => hadmits m (hperm.mem_iff.2 hm)⟩)]
  obtain ⟨m, hm, hpasses⟩ := hnames n hn
  exact ⟨m, hperm.mem_iff.1 hm, hpasses⟩

/-! ## All groups -/

/-- A walk through a group takes some children without a violation, and is then over without one. -/
def Takes (s : Schema) (root : GroupId) (names : List QName) : Prop :=
  ∃ start m w, Matching.start s root = .ok start ∧ Matching.after s 0 start names = .ok m ∧
    m.issues = [] ∧ m.walk.stop s = (.ok [], w) ∧ w.current = none

end Schema

theorem Matching.after_known (hs : s.Built) {m' : Matching} : ∀ {names : List QName} {index : Nat}
    {m : Matching}, m.IsKnown s → after s index m names = .ok m' → m'.IsKnown s
  | [], _, _, hm, h => Except.ok.inj h ▸ hm
  | name :: rest, index, m, hm, h => by
    simp only [after] at h
    split at h
    · cases h
    · rename_i hchild
      exact after_known hs (attributeFrom_known hs hm hchild).2.1 h

namespace Schema

/-- A content without issues is taken. -/
theorem Built.takes (hs : s.Built) (hv : s.version = .v10) (hroot : .group root ∈ s.particles)
    (h : s.issues root names = .ok []) : s.Takes root names := by
  simp only [issues, attribution, bind, Except.bind, pure, Except.pure] at h
  cases hstart : Matching.start s root with
  | error f => rw [hstart] at h; cases h
  | ok start =>
      have hknown : start.IsKnown s := by
        simp only [Matching.start, bind, Except.bind, pure, Except.pure] at hstart
        split at hstart
        · cases hstart
        · rename_i hwalk
          cases hstart
          exact ⟨grounded_start hs hroot hwalk, List.forall_mem_nil _⟩
      rw [hstart] at h
      dsimp only at h
      rw [Matching.issues_children] at h
      cases hafter : Matching.after s 0 start names with
      | error f => rw [hafter] at h; cases h
      | ok m =>
          rw [hafter] at h
          simp only [Matching.finish, bind, Except.bind, pure, Except.pure] at h
          rcases stop_ends hs hv (Matching.after_known hs hknown hafter).walk.lodged with
            ⟨⟨violations, hok⟩, hended⟩ | ⟨f, hf, -⟩
          · rw [hok] at h
            obtain ⟨hissues, hviolations⟩ := List.append_eq_nil_iff.1 (Except.ok.inj h)
            obtain rfl := List.map_eq_nil_iff.1 hviolations
            exact ⟨start, m, (m.walk.stop s).2, hstart, hafter, hissues, Prod.ext hok rfl, hended⟩
          · rw [hf] at h
            cases h

/-- The words of an `all` group or of a steady model, but the empty one, have no issues, and the
walk is over at their end. -/
theorem words_accepted {s : Schema} {root : GroupId} {names : List QName} (hs : s.Built)
    (hv : s.version = .v10) (hdistinct : s.DistinctElements (s.leaves root))
    (hdepth : s.isWithin s.limits.maxModelDepth root = true)
    (hsteady : (s.group root).compositor ≠ .all → s.IsSteady root) (hne : names ≠ [])
    (hword : s.Words s.occurs (.group root) names) :
    s.issues root names = .ok [] ∧ s.Takes root names := by
  have hfreed : s.Words (s.freed root) (.group root) names :=
    hword.mono (fun _ _ _ hadmits => admits_freed hadmits) .root
  have hvoid : ¬s.IsVoid (.group root) := hs.not_isVoid_of_words hne hfreed
  have hissues : s.issues root names = .ok [] := by
    by_cases hall : (s.group root).compositor = .all
    · exact hs.issues_of_all hv hall hdistinct hne hword
    · have htractable : s.Tractable root :=
        ⟨hs, fun _ hg => hs.contains_ne_all hv hall hg, hdistinct, hvoid, hsteady hall⟩
      exact htractable.issues_eq_nil hv hdepth hne hfreed
  exact ⟨hissues, hs.takes hv (mem_particles_of_not_isVoid hvoid) hissues⟩

end Schema

/-- As many names as the bounds of a leaf admit, all of which it matches. -/
theorem Components.Words.leaf {c : Components} {b : Member → Occurs} {w : List QName}
    (hm : m.isGroup = false) (hadmits : (b m).Admits w.length)
    (hall : ∀ n ∈ w, c.passes m n = true) : c.Words b m w :=
  .intro hadmits ((times_leaf_iff hm).2 ⟨rfl, hall⟩)

/-- Groups whose nested groups are among them are all the groups in one of them. -/
theorem Components.Contains.mem_of_nested {c : Components} {gs : List GroupId} (hroot : root ∈ gs)
    (hnested : ∀ g ∈ gs, ∀ sub ∈ c.nested g, sub ∈ gs) (h : c.Contains root m) :
    ∀ g, m = .group g → g ∈ gs := by
  induction h with
  | root =>
      rintro g heq
      obtain rfl := Member.group.inj heq
      exact hroot
  | @member outer m _ hmem ih =>
      rintro g rfl
      exact hnested outer (ih outer rfl) g (List.mem_filterMap.2 ⟨_, hmem, rfl⟩)

theorem acceptedSample_groups (h : acceptedSample.schema.Contains ⟨1⟩ (.group g)) :
    g ∈ [⟨0⟩, ⟨1⟩] :=
  h.mem_of_nested (by decide) (by decide +kernel) g rfl

/-- What is chosen any number of times, each time not more than twice, is not missed. -/
theorem acceptedSample_isSteady (hs : acceptedSample.schema.Built) :
    acceptedSample.schema.IsSteady ⟨1⟩ where
  lonely := by
    intro g m hin hrepeats hlonely
    rcases List.mem_pair.1 (acceptedSample_groups hin) with rfl | rfl
    · have hmin : ∀ m ∈ (acceptedSample.schema.group ⟨0⟩).members,
          (acceptedSample.schema.occurs m).min.toNat ≤ 1 := by decide +kernel
      exact .inr ⟨.inl ⟨rfl, Nat.zero_le 1⟩, .inl (hmin m hlonely.mem)⟩
    · rcases hrepeats with ⟨-, hmax⟩ | hfree
      · exact absurd rfl hmax
      · exact absurd hfree (Schema.not_free_root hs)
  hollow := by
    intro g hin hhollow
    rcases List.mem_pair.1 (acceptedSample_groups hin) with rfl | rfl
    · exact .inl rfl
    · exact absurd hhollow (by decide +kernel)
  counted := by
    intro g sub hin hchoice hmem
    rcases List.mem_pair.1 (acceptedSample_groups hin) with rfl | rfl
    · have hleaf : ∀ m ∈ (acceptedSample.schema.group ⟨0⟩).members, m.isGroup = false := by
        decide +kernel
      cases hleaf _ hmem
    · cases hchoice

theorem words_accepted_sample :
    acceptedSample.schema.issues ⟨1⟩
        [.plain "a", .plain "c", .plain "c", .plain "b"] = .ok [] ∧
      acceptedSample.schema.Takes ⟨1⟩ [.plain "a", .plain "c", .plain "c", .plain "b"] := by
  have hs : acceptedSample.schema.Built :=
    (((Components.assembled_withElements ..).withGroup ..).withGroup ..).built rfl
  have hchoice : acceptedSample.schema.Words acceptedSample.schema.occurs (.group ⟨0⟩)
      [.plain "c", .plain "c", .plain "b"] := by
    refine .intro (n := 2) (by decide +kernel) (.succ (u := [.plain "c", .plain "c"]) ?_
      (.succ (u := [.plain "b"]) ?_ .zero))
    · exact .choice rfl (m := .element ⟨2⟩) (by decide +kernel)
        (.leaf rfl (by decide +kernel) (by decide +kernel))
    · exact .choice rfl (m := .element ⟨1⟩) (by decide +kernel)
        (.leaf rfl (by decide +kernel) (by decide +kernel))
  have hword : acceptedSample.schema.Words acceptedSample.schema.occurs (.group ⟨1⟩)
      [.plain "a", .plain "c", .plain "c", .plain "b"] := by
    refine .intro (n := 1) (by decide +kernel) (Once.times (.sequence rfl ?_))
    exact .cons (u := [.plain "a"]) (.leaf rfl (by decide +kernel) (by decide +kernel))
      (.singleton hchoice)
  exact Schema.words_accepted hs rfl ⟨[⟨0⟩, ⟨1⟩, ⟨2⟩], rfl, by decide +kernel⟩ (by decide +kernel)
    (fun _ => acceptedSample_isSteady hs) (by decide) hword

namespace Schema

/-- Children that are rejected although they are a word of the group. -/
structure Misses (s : Schema) (root : GroupId) (names : List QName) : Prop where
  built : s.Built
  version : s.version = .v10
  distinct : s.DistinctElements (s.leaves root)
  isWithin : s.isWithin s.limits.maxModelDepth root = true
  ne_nil : names ≠ []
  words : s.Words s.occurs (.group root) names
  rejected : s.issues root names ≠ .ok []

end Schema

/-- One or two `a`, once or twice. -/
def greedySample : Components :=
  (Components.withElements .v10 [("a", ⟨1, some 2⟩)]).withGroup .sequence ⟨1, some 2⟩ [.element ⟨0⟩]

/-- The first repetition takes two `a`, and the second one cannot take what is left. -/
theorem greedySample_misses :
    greedySample.schema.Misses ⟨0⟩ [.plain "a", .plain "a", .plain "a"] where
  built := ((Components.assembled_withElements ..).withGroup ..).built rfl
  version := rfl
  distinct := ⟨[⟨0⟩], rfl, by decide +kernel⟩
  isWithin := by decide +kernel
  ne_nil := by decide
  words := by
    refine .intro (n := 2) (by decide +kernel)
      (.succ (u := [.plain "a", .plain "a"]) ?_ (.succ (u := [.plain "a"]) ?_ .zero))
    · exact .sequence rfl (.singleton (.leaf rfl (by decide +kernel) (by decide +kernel)))
    · exact .sequence rfl (.singleton (.leaf rfl (by decide +kernel) (by decide +kernel)))
  rejected := by decide +kernel

/-- Two or three `a`, any number of times. -/
def remainderSample : Components :=
  (Components.withElements .v10 [("a", ⟨2, some 3⟩)]).withGroup .sequence ⟨1, none⟩ [.element ⟨0⟩]

theorem remainderSample_misses :
    remainderSample.schema.Misses ⟨0⟩ (List.replicate 4 (.plain "a")) where
  built := ((Components.assembled_withElements ..).withGroup ..).built rfl
  version := rfl
  distinct := ⟨[⟨0⟩], rfl, by decide +kernel⟩
  isWithin := by decide +kernel
  ne_nil := by decide
  words := by
    refine .intro (n := 2) (by decide +kernel)
      (.succ (u := [.plain "a", .plain "a"]) ?_ (.succ (u := [.plain "a", .plain "a"]) ?_ .zero))
    · exact .sequence rfl (.singleton (.leaf rfl (by decide +kernel) (by decide +kernel)))
    · exact .sequence rfl (.singleton (.leaf rfl (by decide +kernel) (by decide +kernel)))
  rejected := by decide +kernel

/-- One optional `a`, twice. -/
def hollowSample : Components :=
  (Components.withElements .v10 [("a", .optional)]).withGroup .choice ⟨2, some 2⟩ [.element ⟨0⟩]

theorem hollowSample_misses : hollowSample.schema.Misses ⟨0⟩ [.plain "a"] where
  built := ((Components.assembled_withElements ..).withGroup ..).built rfl
  version := rfl
  distinct := ⟨[⟨0⟩], rfl, by decide +kernel⟩
  isWithin := by decide +kernel
  ne_nil := by decide
  words := by
    refine .intro (n := 2) (by decide +kernel)
      (.succ (u := [.plain "a"]) ?_ (.succ (u := []) ?_ .zero))
    · exact .choice rfl (m := .element ⟨0⟩) (by decide +kernel)
        (.leaf rfl (by decide +kernel) (by decide +kernel))
    · exact .choice rfl (m := .element ⟨0⟩) (by decide +kernel)
        (.leaf rfl (by decide +kernel) (by decide +kernel))
  rejected := by decide +kernel

/-- One alternative: an optional `a` before two `b`, twice or three times. -/
def uncountedSample : Components :=
  ((Components.withElements .v10 [("a", .optional), ("b", ⟨2, some 2⟩)]).withGroup .sequence
    ⟨2, some 3⟩ [.element ⟨0⟩, .element ⟨1⟩]).withGroup .choice .once [.group ⟨0⟩]

theorem uncountedSample_misses : uncountedSample.schema.Misses ⟨1⟩
    [.plain "a", .plain "b", .plain "b", .plain "b", .plain "b"] where
  built := (((Components.assembled_withElements ..).withGroup ..).withGroup ..).built rfl
  version := rfl
  distinct := ⟨[⟨0⟩, ⟨1⟩], rfl, by decide +kernel⟩
  isWithin := by decide +kernel
  ne_nil := by decide
  words := by
    have hrow : ∀ u, u = [] ∨ u = [.plain "a"] → uncountedSample.schema.Once
        uncountedSample.schema.occurs (.group ⟨0⟩) (u ++ [.plain "b", .plain "b"]) := by
      intro u hu
      refine .sequence rfl (.cons (u := u) ?_ (.singleton ?_))
      · rcases hu with rfl | rfl
        · exact .leaf rfl (by decide +kernel) (by decide +kernel)
        · exact .leaf rfl (by decide +kernel) (by decide +kernel)
      · exact .leaf rfl (by decide +kernel) (by decide +kernel)
    refine .intro (n := 1) (by decide +kernel) (Once.times (.choice rfl (m := .group ⟨0⟩)
      (by decide +kernel) (.intro (n := 2) (by decide +kernel) ?_)))
    exact .succ (hrow [.plain "a"] (.inr rfl)) (.succ (hrow [] (.inl rfl)) .zero)
  rejected := by decide +kernel

/-- A walk stays where it is as long as it may, does not count repetitions without a child, and does
not count those of an alternative of which the first member may be missing. -/
theorem misses_samples :
    greedySample.schema.Misses ⟨0⟩ [.plain "a", .plain "a", .plain "a"] ∧
      remainderSample.schema.Misses ⟨0⟩ (List.replicate 4 (.plain "a")) ∧
      hollowSample.schema.Misses ⟨0⟩ [.plain "a"] ∧
      uncountedSample.schema.Misses ⟨1⟩
        [.plain "a", .plain "b", .plain "b", .plain "b", .plain "b"] :=
  ⟨greedySample_misses, remainderSample_misses, hollowSample_misses, uncountedSample_misses⟩

end Conform
