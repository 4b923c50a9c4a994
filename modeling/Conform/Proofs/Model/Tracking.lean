import Conform.Proofs.Model.Gauge
/-!
# Walks and what is still to come

Wherever a walk stands in a steady model, it has counted what it must of the groups around it, and
the children that are left are what can still come there.
-/

namespace Conform

open Components Walk Schema

section

variable (s : Schema) (root : GroupId) (counts ceilings : Tally)

/-- The members of a group around the one at which a walk is. -/
structure Holds (f : Frame) (done : List Member) (m : Member) : Prop where
  members : (s.group f.group).members = done ++ m :: f.rest
  settled : (s.group f.group).compositor = .sequence → ∀ x ∈ done, Settled s root counts ceilings x

/-- The groups around a walk. None of them has reached its maximum, and in a sequence that has
matched a member has occurred. -/
inductive Stack : GroupId → List Frame → Prop
  | root : Gauge s counts ceilings (.group root) → Stack root []
  | nested {g : GroupId} {f : Frame} {outer : List Frame} {done : List Member} :
      Stack f.group outer → IsOpen s counts ceilings f.group →
      Holds s root counts ceilings f done (.group g) →
      (f.matched = true → (s.group f.group).compositor = .sequence ∧
        ∃ x ∈ done, 0 < counts.count x) →
      Gauge s counts ceilings (.group g) → Stack g (f :: outer)

end

variable {s : Schema} {root g : GroupId} {counts ceilings counts' ceilings' : Tally}
  {m x : Member} {f : Frame} {outer : List Frame} {done rest : List Member} {w : Walk}
  {ns : List QName}

/-! ## Other counts -/

theorem Schema.Settled.congr (h : Settled s root counts ceilings m)
    (hcount : counts'.count m = counts.count m) (hceiling : ceilings'.count m = ceilings.count m) :
    Settled s root counts' ceilings' m := by
  refine ⟨h.gauge.congr hcount hceiling, ?_, ?_⟩
  · rw [hcount]
    exact h.bound
  · rw [hcount]
    exact h.present

theorem Holds.congr (h : Holds s root counts ceilings f done m)
    (hsame : ∀ x ∈ done, counts'.count x = counts.count x ∧ ceilings'.count x = ceilings.count x) :
    Holds s root counts' ceilings' f done m :=
  ⟨h.members, fun hsequence x hx =>
    (h.settled hsequence x hx).congr (hsame x hx).1 (hsame x hx).2⟩

theorem Holds.mem (h : Holds s root counts ceilings f done m) : m ∈ (s.group f.group).members := by
  simp [h.members]

theorem Holds.not_mem (h : Holds s root counts ceilings f done m) (hs : s.Built) (hx : x ∈ done) :
    x ≠ m := by
  have hnodup := hs.forest.nodup f.group
  rw [h.members] at hnodup
  rintro rfl
  exact List.disjoint_of_nodup_append hnodup hx List.mem_cons_self

namespace Schema

theorem Out.congr : ∀ {outer : List Frame}, (∀ f ∈ outer,
    counts'.count (.group f.group) = counts.count (.group f.group)) →
      Out s root counts' outer = Out s root counts outer
  | [], _ => rfl
  | f :: outer, hsame => by
    have hrest : Out s root counts' outer = Out s root counts outer :=
      Out.congr fun f' hf' => hsame f' (List.mem_cons_of_mem f hf')
    funext ns
    rw [Out, Out, hrest, Behind, Behind, hsame f List.mem_cons_self]

theorem Idle.congr (h : Idle s root counts g outer ns)
    (hhere : counts'.count (.group g) = counts.count (.group g))
    (hsame : ∀ f ∈ outer, counts'.count (.group f.group) = counts.count (.group f.group)) :
    Idle s root counts' g outer ns := by
  induction h with
  | root hne hstill =>
      refine .root ?_ ?_
      · rw [hhere]
        exact hne
      · rw [hhere]
        exact hstill
  | going hlive hstill =>
      refine .going ?_ ?_
      · rw [hhere]
        exact hlive
      · rw [hhere, Out.congr hsame]
        exact hstill
  | fresh hzero hmatched hmembers hpassed _ ih =>
      refine .fresh ?_ hmatched hmembers hpassed
        (ih (hsame _ List.mem_cons_self) fun f' hf' => hsame f' (List.mem_cons_of_mem _ hf'))
      rw [hhere]
      exact hzero

/-- A group of which some repetitions are behind the walk. -/
theorem Idle.of_still (hpos : 0 < counts.count (.group g))
    (h : Still s root (.group g) (counts.count (.group g)) (Out s root counts outer) ns)
    (hg : outer = [] → g = root) : Idle s root counts g outer ns := by
  cases outer with
  | nil =>
      obtain rfl := hg rfl
      exact .root (fun hzero => by omega) h
  | cons f outer => exact .going (.inl hpos) h

end Schema

/-! ## The groups around a walk -/

namespace Stack

theorem chain (h : Stack s root counts ceilings g outer) :
    Chain s root counts ceilings (.group g) outer := by
  induction h with
  | root => exact .root
  | nested _ hopen hholds _ _ ih => exact .frame hholds.members hopen ih

theorem contains (h : Stack s root counts ceilings g outer) : s.Contains root (.group g) :=
  h.chain.contains

theorem gauge (h : Stack s root counts ceilings g outer) : Gauge s counts ceilings (.group g) := by
  cases h with
  | root hgauge => exact hgauge
  | nested _ _ _ _ hgauge => exact hgauge

theorem eq_root (h : Stack s root counts ceilings g []) : g = root := by
  cases h
  rfl

theorem index_lt (h : Stack s root counts ceilings g outer) (hs : s.Built) :
    ∀ f ∈ outer, g.index < f.group.index := by
  induction h with
  | root => exact List.forall_mem_nil _
  | nested _ _ hholds _ _ ih =>
      have hlt := hs.forest.index_lt hholds.mem
      refine List.forall_mem_cons.2 ⟨hlt, fun f' hf' => ?_⟩
      have hrest := ih f' hf'
      omega

theorem congr (h : Stack s root counts ceilings g outer)
    (hhere : counts'.count (.group g) = counts.count (.group g) ∧
      ceilings'.count (.group g) = ceilings.count (.group g))
    (hsame : ∀ f ∈ outer, ∀ x, x ∈ (s.group f.group).members ∨ x = .group f.group →
      counts'.count x = counts.count x ∧ ceilings'.count x = ceilings.count x) :
    Stack s root counts' ceilings' g outer := by
  induction h with
  | root hgauge => exact .root (hgauge.congr hhere.1 hhere.2)
  | @nested g f outer done _ hopen hholds hmatched hgauge ih =>
      have hf := hsame f List.mem_cons_self
      have hgroup := hf (.group f.group) (.inr rfl)
      have hdone : ∀ x ∈ done, counts'.count x = counts.count x ∧
          ceilings'.count x = ceilings.count x :=
        fun x hx => hf x (.inl (by simp [hholds.members, hx]))
      refine .nested (ih hgroup fun f' hf' => hsame f' (List.mem_cons_of_mem _ hf'))
        (hopen.congr hgroup.1 hgroup.2) (hholds.congr hdone) (fun htrue => ?_)
        (hgauge.congr hhere.1 hhere.2)
      obtain ⟨hsequence, x, hx, hpos⟩ := hmatched htrue
      exact ⟨hsequence, x, hx, (hdone x hx).1 ▸ hpos⟩

/-- The groups around a walk do not change with what is counted in the innermost one. -/
theorem replace (h : Stack s root counts ceilings g outer) (hs : s.Built)
    (hsame : ∀ x, x ≠ .group g → x ∉ (s.group g).members →
      counts'.count x = counts.count x ∧ ceilings'.count x = ceilings.count x)
    (hgauge : Gauge s counts' ceilings' (.group g)) :
    Stack s root counts' ceilings' g outer ∧ ∀ f ∈ outer,
      counts'.count (.group f.group) = counts.count (.group f.group) := by
  have hlt := h.index_lt hs
  have hgroup : ∀ f ∈ outer, counts'.count (.group f.group) = counts.count (.group f.group) ∧
      ceilings'.count (.group f.group) = ceilings.count (.group f.group) := by
    intro f hf
    have hindex := hlt f hf
    refine hsame _ ?_ fun hmem => ?_
    · intro heq
      rw [Member.group.inj heq] at hindex
      omega
    · have hback := hs.forest.index_lt hmem
      omega
  refine ⟨?_, fun f hf => (hgroup f hf).1⟩
  cases h with
  | root => exact .root hgauge
  | @nested g f outer done hstack hopen hholds hmatched _ =>
      -- a member of another group around is not in the innermost one
      have hother : ∀ f' ∈ f :: outer, ∀ y ∈ (s.group f'.group).members, y ∉ (s.group g).members := by
        intro f' hf' y hy hy'
        have howner := hs.forest.owner hy
        rw [hs.forest.owner hy'] at howner
        have hindex := hlt f' hf'
        rw [Option.some.inj howner] at hindex
        omega
      have hdone : ∀ x ∈ done, counts'.count x = counts.count x ∧
          ceilings'.count x = ceilings.count x := by
        intro x hx
        refine hsame x (hholds.not_mem hs hx) (hother f List.mem_cons_self x ?_)
        simp [hholds.members, hx]
      have hf := hgroup f List.mem_cons_self
      have hfar := hstack.index_lt hs
      refine .nested (hstack.congr hf fun f' hf' x hx => ?_) (hopen.congr hf.1 hf.2)
        (hholds.congr hdone) (fun htrue => ?_) hgauge
      · rcases hx with hx | rfl
        · refine hsame x ?_ (hother f' (List.mem_cons_of_mem _ hf') x hx)
          rintro rfl
          have howner := hs.forest.owner hholds.mem
          rw [hs.forest.owner hx] at howner
          have hindex := hfar f' hf'
          rw [Option.some.inj howner] at hindex
          omega
        · exact hgroup f' (List.mem_cons_of_mem _ hf')
      · obtain ⟨hsequence, x, hx, hpos⟩ := hmatched htrue
        exact ⟨hsequence, x, hx, (hdone x hx).1 ▸ hpos⟩

/-- The counts of its members say nothing of a group. -/
theorem keep (h : Stack s root counts ceilings g outer) (hs : s.Built)
    (hsame : ∀ x, x ∉ (s.group g).members →
      counts'.count x = counts.count x ∧ ceilings'.count x = ceilings.count x) :
    Stack s root counts' ceilings' g outer ∧
      counts'.count (.group g) = counts.count (.group g) ∧ ∀ f ∈ outer,
        counts'.count (.group f.group) = counts.count (.group f.group) := by
  have hgroup := hsame (.group g) fun hmem => hs.forest.ne_of_mem hmem rfl
  obtain ⟨hstack, houter⟩ := h.replace hs (fun x _ hx => hsame x hx)
    (h.gauge.congr hgroup.1 hgroup.2)
  exact ⟨hstack, hgroup.1, houter⟩

/-- The groups in a walk are within the bound on the depth. -/
theorem isWithin (h : Stack s root counts ceilings g outer) {depth : Nat}
    (hroot : s.isWithin depth root = true) : ∃ k, outer.length + k = depth ∧
      s.isWithin k g = true := by
  induction h with
  | root => exact ⟨depth, Nat.zero_add _, hroot⟩
  | nested _ _ hholds _ _ ih =>
      obtain ⟨k, hk, hwithin⟩ := ih
      obtain ⟨k, rfl, hsub⟩ := Schema.isWithin_of_nested hwithin hholds.mem
      refine ⟨k, ?_, hsub⟩
      rw [List.length_cons]
      omega

/-- The bound on the depth admits a group inside the innermost one. -/
theorem room {sub : GroupId} (h : Stack s root counts ceilings g outer)
    (hroot : s.isWithin s.limits.maxModelDepth root = true)
    (hsub : .group sub ∈ (s.group g).members) :
    s.limits.isModelDepthExceeded (outer.length + 1) = false := by
  obtain ⟨k, hk, hwithin⟩ := h.isWithin hroot
  obtain ⟨k, rfl, -⟩ := Schema.isWithin_of_nested hwithin hsub
  have hle : outer.length + 1 ≤ s.limits.maxModelDepth := by omega
  simpa [Limits.isModelDepthExceeded] using hle

end Stack

/-- The groups around a walk do not change with what is counted for a member of the innermost one. -/
theorem Holds.recount (h : Holds s root counts ceilings f done m) (hs : s.Built)
    (hstack : Stack s root counts ceilings f.group outer)
    (hsame : ∀ x, x ≠ m → counts'.count x = counts.count x ∧
      ceilings'.count x = ceilings.count x) :
    Stack s root counts' ceilings' f.group outer ∧ Holds s root counts' ceilings' f done m ∧
      (IsOpen s counts ceilings f.group → IsOpen s counts' ceilings' f.group) ∧
      ∀ f' ∈ f :: outer, counts'.count (.group f'.group) = counts.count (.group f'.group) := by
  obtain ⟨hstack', hhere, houter⟩ := hstack.keep hs fun x hx =>
    hsame x fun heq => hx (heq ▸ h.mem)
  have hgroup := hsame (.group f.group) fun heq => hs.forest.ne_of_mem (heq ▸ h.mem) rfl
  exact ⟨hstack', h.congr fun x hx => hsame x (h.not_mem hs hx),
    fun hopen => hopen.congr hgroup.1 hgroup.2, List.forall_mem_cons.2 ⟨hhere, houter⟩⟩

end Conform
