import Conform.Proofs.Model.Pursuit
/-!
# Children at the leaves of a steady model

A walk takes a child for the leaf on which it stands, or goes on behind it. Either way nothing is
reported, and the children that are left can still come.
-/

namespace Conform

namespace Walk

/-- A walk on a leaf or at its end, with the children `ns` still to come. -/
def Awaits (s : Schema) (root : GroupId) (w : Walk) (ns : List QName) : Prop :=
  (∃ m, OnTrack s root w m ns) ∨ w.current = none ∧ ns = []

/-- Where a walk moves on to without a violation. The budget may be too small. -/
def GoesTo (s : Schema) (root : GroupId) (ns : List QName) :
    Except Failure (List Violation) × Walk → Prop
  | (.ok violations, w) => violations = [] ∧ Awaits s root w ns
  | (.error f, _) => f = .endlessModel

/-- A walk whose leaf has just taken a child, with the children `ns` still to come. -/
structure HasTaken (s : Schema) (root : GroupId) (w : Walk) (m : Member) (done : List Member)
    (ns : List QName) : Prop where
  isLeaf : m.isGroup = false
  tidy : Tidy s w.counts w.ceilings (some m)
  stack : Stack s root w.counts w.ceilings w.here.group w.outer
  isOpen : IsOpen s w.counts w.ceilings w.here.group
  holds : Holds s root w.counts w.ceilings w.here done m
  matched : w.here.matched = true
  pos : 0 < w.counts.count m
  left : (s.group w.here.group).compositor = .sequence ∧
      s.Still root m (w.counts.count m) (s.Out root w.counts (w.here :: w.outer)) ns ∨
    (s.group w.here.group).compositor = .choice ∧
      ((s.occurs m).isAmbiguous = false → ∀ i ∈ (s.occurs m).max,
        w.counts.count m ≤ i.toNat) ∧
      s.Pending root w.counts m (w.counts.count m) w.here.group (s.Out root w.counts w.outer) ns

end Walk

open Components Walk Schema

variable {s : Schema} {root g : GroupId} {counts ceilings counts' ceilings' : Tally}
  {m x : Member} {f : Frame} {outer : List Frame} {done rest : List Member} {w : Walk}
  {ns : List QName} {n : QName} {k : Nat} {E : List QName → Prop}

/-! ## Moving on -/

/-- Nothing is reported at the end of the root group. -/
theorem Walk.LeadsTo.goesTo {move : Move} (h : LeadsTo s root ns move) :
    GoesTo s root ns (settle s move) := by
  cases move with
  | again p => rfl
  | placed p => exact ⟨h.1, .inl h.2⟩
  | failed failure p => exact h
  | ended p =>
      obtain ⟨w, last, violations⟩ := p
      obtain ⟨hnone, hdone⟩ := h
      obtain rfl : violations = [] := hnone
      have hmember : w.hereMember = .group root := congrArg Member.group hdone.here
      have hfinish := finish_of_admitted (w := w) last []
        (by rw [hmember, hdone.here]; exact hdone.enough)
        (by rw [hmember, hdone.here]; exact hdone.max)
      rw [settle, hfinish]
      exact ⟨rfl, .inr ⟨rfl, hdone.nil⟩⟩

/-- A walk moves on from a leaf. -/
theorem Leaving.goesTo (hs : s.Tractable root)
    (hdepth : s.isWithin s.limits.maxModelDepth root = true) (hleaf : m.isGroup = false)
    (h : Leaving s root w.counts w.ceilings w.here w.outer done m ns) :
    GoesTo s root ns (w.moveOn s m) := by
  have hcloses : ClosesTo s root m none ns (w.closeLeaf s m) := h.closes hs
  obtain ⟨⟨missing, w'⟩, hclose⟩ : ∃ r, w.closeLeaf s m = r := ⟨_, rfl⟩
  rw [hclose] at hcloses
  cases missing with
  | none =>
      rw [moveOn_of_none hclose]
      have hends : LeadsTo s root ns (.ended ⟨w', none, []⟩) := ⟨rfl, hcloses⟩
      exact hends.goesTo
  | some missing =>
      obtain ⟨htracks, hexcused⟩ := hcloses
      have hthere : missing = false := by
        by_contra hmissing
        obtain ⟨sub, rfl, -⟩ := hexcused (by simpa using hmissing)
        cases hleaf
      subst hthere
      rw [moveOn_of_some hclose]
      exact (htracks.run_leadsTo hs hdepth).goesTo

/-! ## Children that a leaf does not match -/

/-- Something has occurred where a sequence has matched. -/
theorem Stands.counted (h : Stands s root counts f outer done m ns) (hmatched : f.matched = true)
    (hsequence : (s.group f.group).compositor = .sequence) :
    ∃ x ∈ done ++ [m], 0 < counts.count x := by
  cases h with
  | fresh hunmatched =>
      rw [hmatched] at hunmatched
      cases hunmatched
  | within _ _ hcounted => exact hcounted
  | alternative hchoice =>
      rw [hsequence] at hchoice
      cases hchoice

/-- A leaf that the next child does not match is left. -/
theorem Stands.pass (h : Stands s root counts f outer done m ns) (hleaf : m.isGroup = false)
    (hn : ∀ n ∈ ns.head?, s.passes m n = false) : Leaves s root counts f outer done m ns := by
  cases h with
  | fresh hmatched hzero hdone hidle =>
      exact .untouched hzero hmatched hdone (passed_leaf hleaf hn) hidle
  | within hsequence hmatched _ _ hstill =>
      obtain ⟨hadmits, hout⟩ := hstill.pass_leaf hleaf hn
      exact .counted hsequence (.inl hmatched) (.of_admits hadmits) hout
  | alternative hchoice _ hpos _ hpending =>
      obtain ⟨j, r, u, v, heq, htimes, hr, hmin, hmax, hstill⟩ := hpending
      obtain ⟨rfl, rfl⟩ := times_leaf_pass hleaf hn heq htimes
      exact .leaf hchoice hleaf hpos hr hmin hmax hstill

theorem Walk.OnTrack.pass (hs : s.Tractable root)
    (hdepth : s.isWithin s.limits.maxModelDepth root = true) (h : OnTrack s root w m ns)
    (hn : ∀ n ∈ ns.head?, s.passes m n = false) : GoesTo s root ns (w.advance s false) := by
  obtain ⟨done, hholds, hstands⟩ := h.stands
  rw [advance_pass h.current]
  refine Leaving.goesTo hs hdepth h.isLeaf ⟨h.tidy, h.stack, h.isOpen, hholds,
    .leaf h.isLeaf (h.tidy.ceiling_eq_zero m h.isLeaf), hstands.counted, hstands.pass h.isLeaf hn⟩

/-! ## Children that a leaf takes -/

/-- Occurrences, and then further ones. -/
theorem Schema.Still.append {i : Nat} {u v : List QName} (htimes : s.Times (s.freed root) m i u)
    (h : Still s root m (k + i) E v) : Still s root m k E (u ++ v) := by
  obtain ⟨j, a, b, rfl, htimes', hadmits, hE⟩ := h
  exact ⟨i + j, u ++ a, b, (List.append_assoc ..).symm, htimes.append htimes',
    Nat.add_assoc k i j ▸ hadmits, hE⟩

/-- Of the counts that of the choice alone matters. -/
theorem Schema.Pending.congr (h : Pending s root counts m k g E ns)
    (hsame : counts'.count (.group g) = counts.count (.group g)) :
    Pending s root counts' m k g E ns := by
  unfold Pending
  rw [hsame]
  exact h

/-- An alternative that occurs just as often as it must, and has done so: what is left of it makes up
further repetitions of the choice. -/
theorem Schema.Pending.full (hs : s.Built) (hleaf : m.isGroup = false)
    (hm : m ∈ (s.group g).members) (hchoice : (s.group g).compositor = .choice)
    (hexact : (s.occurs m).max = some (s.occurs m).min) (hk : k = (s.occurs m).min.toNat)
    (h : Pending s root counts m k g E ns) :
    Still s root (.group g) (counts.count (.group g) + 1) E ns := by
  obtain ⟨j, r, u, v, rfl, htimes, hr, hmin, hmax, hstill⟩ := h
  obtain ⟨i, rfl⟩ := Nat.exists_eq_add_of_le' hr
  have hfreed : s.freed root m = s.occurs m :=
    freed_leaf hleaf (not_free_alternative hs hleaf hm hchoice)
  have hle := hmax _ hexact
  rw [Nat.succ_mul] at hmin hle
  have hj : j = i * (s.occurs m).min.toNat := by omega
  have hrepetitions : s.Times (s.freed root) (.group g) i u := by
    rcases Nat.eq_zero_or_pos i with rfl | hpos
    · rw [Nat.zero_mul] at hj
      subst hj
      rw [htimes.eq_nil]
      exact .zero
    · refine htimes.ofChoice hchoice hm ((hs.widened_freed root).min_le m) hpos ?_ fun n hn => ?_
      · rw [hfreed]
        exact hj.ge
      · rw [hfreed, hexact] at hn
        rw [← Option.some.inj hn]
        exact hj.le
  refine .append hrepetitions ?_
  have hsum : counts.count (.group g) + 1 + i = counts.count (.group g) + (i + 1) := by omega
  rw [hsum]
  exact hstill

/-- What is left when a leaf has taken the next child. -/
theorem Stands.take (hs : s.Tractable root) (hstack : Stack s root counts ceilings f.group outer)
    (hopen : IsOpen s counts ceilings f.group) (hholds : Holds s root counts ceilings f done m)
    (hleaf : m.isGroup = false) (hn : s.passes m n = true)
    (h : Stands s root counts f outer done m (n :: ns)) :
    (s.group f.group).compositor = .sequence ∧
        Still s root m (counts.count m + 1) (Out s root counts (f :: outer)) ns ∨
      (s.group f.group).compositor = .choice ∧
        ((s.occurs m).isAmbiguous = false → ∀ i ∈ (s.occurs m).max,
          counts.count m + 1 ≤ i.toNat) ∧
        Pending s root counts m (counts.count m + 1) f.group (Out s root counts outer) ns := by
  have hhas := (has_leaf hleaf).2 hn
  have hchain : Chain s root counts ceilings m (f :: outer) :=
    .frame hholds.members hopen hstack.chain
  cases h with
  | fresh hmatched hzero hdone hidle =>
      have hgroup := hhas.group hs.built hholds.mem hopen.max_ne_zero
      obtain ⟨u, v, rfl, honce, hstill⟩ := hidle.once hs hstack.chain hopen hgroup
      rw [hzero]
      cases hc : (s.group f.group).compositor with
      | all => exact absurd hc (hs.compositor _ hstack.contains)
      | sequence => exact .inl ⟨rfl, hchain.begin_leaf hs hleaf hn honce hstill⟩
      | choice =>
          have hpending := hchain.begin_alternative hs hleaf hc hn honce hstill
          refine .inr ⟨rfl, fun _ i hi => ?_, hpending⟩
          obtain ⟨j, r, -, -, -, -, -, -, hmax, -⟩ := hpending
          refine Nat.pos_of_ne_zero fun hnone => ?_
          have hle := hmax i hi
          rw [hnone, Nat.mul_zero] at hle
          omega
  | within hsequence _ _ hroom hstill =>
      refine .inl ⟨hsequence, hchain.take_leaf hs hleaf hsequence hn ?_ hstill⟩
      rcases hroom with hzero | hroom
      · rw [hzero] at hstill ⊢
        refine fun i hi => Occurs.max_pos (fun hnone => ?_) hi
        -- the child would come in a later repetition
        have hfree : ¬s.Free root m := fun hfree => hfree.max_ne_zero hnone
        obtain ⟨-, hout⟩ := hstill.full hfree ⟨0, hnone, Nat.le_refl 0⟩
        obtain ⟨_, _, -, hword, -⟩ := hchain.replace hs hhas hout
        exact max_ne_zero_of_words hword hnone
      · exact hroom
  | alternative hchoice _ _ hroom hpending =>
      exact .inr ⟨hchoice, hroom, hchain.take_alternative hs hleaf hchoice hn hroom hpending⟩

/-- The tallies after a child. -/
theorem Walk.OnTrack.hasTaken (hs : s.Tractable root) (h : OnTrack s root w m (n :: ns))
    (hn : s.passes m n = true) : ∃ done, HasTaken s root (w.take m) m done ns := by
  obtain ⟨done, hholds, hstands⟩ := h.stands
  have hsame : ∀ x, x ≠ m → (w.take m).counts.count x = w.counts.count x ∧
      (w.take m).ceilings.count x = w.ceilings.count x := by
    intro x hx
    simp [Walk.take, hx]
  have hcount : (w.take m).counts.count m = w.counts.count m + 1 := by simp [Walk.take]
  obtain ⟨hstack, hholds', hopen, hframes⟩ := hholds.recount hs.built h.stack hsame
  obtain ⟨hgroup, houter⟩ := List.forall_mem_cons.1 hframes
  refine ⟨done, h.isLeaf, ⟨h.tidy.ceiling_eq_zero, fun g x hchoice hx hxleaf hxm => ?_⟩, hstack,
    hopen h.isOpen, ⟨hholds'.members, hholds'.settled⟩, rfl, ?_, ?_⟩
  · rw [(hsame x fun heq => hxm (heq ▸ rfl)).1]
    exact h.tidy.count_eq_zero g x hchoice hx hxleaf hxm
  · rw [hcount]
    exact Nat.succ_pos _
  · rcases hstands.take hs h.stack h.isOpen hholds h.isLeaf hn with ⟨hsequence, hstill⟩ |
      ⟨hchoice, hroom, hpending⟩
    · have hout : Out s root (w.take m).counts ((w.take m).here :: (w.take m).outer) =
          Out s root w.counts (w.here :: w.outer) :=
        Out.congr (List.forall_mem_cons.2 ⟨hgroup, houter⟩)
      refine .inl ⟨hsequence, ?_⟩
      rw [hcount, hout]
      exact hstill
    · have hout : Out s root (w.take m).counts (w.take m).outer = Out s root w.counts w.outer :=
        Out.congr houter
      refine .inr ⟨hchoice, ?_, ?_⟩
      · rw [hcount]
        exact hroom
      · rw [hcount, hout]
        exact hpending.congr hgroup

/-- A walk stays on a leaf of which more occurrences are admitted. -/
theorem Walk.HasTaken.stays (h : HasTaken s root w m done ns) (hcurrent : w.current = some m)
    (hstay : w.staysOn s m = true) : OnTrack s root w m ns := by
  simp only [staysOn, Bool.and_eq_true, Bool.or_eq_true, Bool.not_eq_true',
    decide_eq_true_eq] at hstay
  refine ⟨hcurrent, h.isLeaf, h.tidy, h.stack, h.isOpen, done, h.holds, ?_⟩
  rcases h.left with ⟨hsequence, hstill⟩ | ⟨hchoice, -, hpending⟩
  · refine .within hsequence h.matched ⟨m, by simp, h.pos⟩ (.inr ?_) hstill
    refine Occurs.isOver_eq_false_iff.1 (hstay.2.resolve_right fun hchoice => ?_)
    rw [hsequence] at hchoice
    cases hchoice.1
  · refine .alternative hchoice h.matched h.pos (fun hsure => ?_) hpending
    refine Occurs.isOver_eq_false_iff.1 (hstay.2.resolve_right fun hambiguous => ?_)
    rw [hsure] at hambiguous
    cases hambiguous.2

/-- A leaf that has reached its maximum is left. -/
theorem Walk.HasTaken.leaves (hs : s.Tractable root) (h : HasTaken s root w m done ns)
    (hstay : w.staysOn s m = false) : Leaves s root w.counts w.here w.outer done m ns := by
  have hcompositor := hs.compositor _ h.stack.contains
  simp only [staysOn, hcompositor, ne_eq, not_false_iff, decide_true, Bool.true_and,
    Bool.or_eq_false_iff, Bool.not_eq_false', Bool.and_eq_false_iff, decide_eq_false_iff_not]
    at hstay
  obtain ⟨hover, hsure⟩ := hstay
  obtain ⟨i, hi, hle⟩ := Occurs.isOver_iff.1 hover
  rcases h.left with ⟨hsequence, hstill⟩ | ⟨hchoice, hroom, hpending⟩
  · have hchain : Chain s root w.counts w.ceilings m (w.here :: w.outer) :=
      .frame h.holds.members h.isOpen h.stack.chain
    obtain ⟨hadmits, hout⟩ := hchain.full hs ⟨i, hi, hle⟩ h.pos hstill
    exact .counted hsequence (.inl h.matched) (.of_admits hadmits) hout
  · have hunambiguous := hsure.resolve_left fun hno => hno hchoice
    have hexact : (s.occurs m).max = some (s.occurs m).min := by
      simpa [Occurs.isAmbiguous] using hunambiguous
    obtain rfl := Option.some.inj (hi.symm.trans hexact)
    have hk := Nat.le_antisymm (hroom hunambiguous _ hexact) hle
    refine .leaf hchoice h.isLeaf h.pos (Nat.le_refl 1) ?_ (fun l hl => ?_)
      (hpending.full hs.built h.isLeaf h.holds.mem hchoice hexact hk)
    · rw [Nat.one_mul]
      exact hle
    · rw [Nat.one_mul]
      exact hroom hunambiguous l hl

/-- A walk stays on a leaf that has taken a child, or goes on behind it. -/
theorem Walk.OnTrack.take (hs : s.Tractable root)
    (hdepth : s.isWithin s.limits.maxModelDepth root = true) (h : OnTrack s root w m (n :: ns))
    (hn : s.passes m n = true) : GoesTo s root ns (w.advance s true) := by
  obtain ⟨done, htaken⟩ := h.hasTaken hs hn
  have hcompositor : (s.group (w.take m).here.group).compositor ≠ .all :=
    hs.compositor _ h.stack.contains
  cases hstay : (w.take m).staysOn s m with
  | true =>
      have hadvance : w.advance s true = (.ok [], w.take m) := by
        simp only [advance, h.current, hstay, if_true]
      rw [hadvance]
      exact ⟨rfl, .inl ⟨m, htaken.stays h.current hstay⟩⟩
  | false =>
      have hadvance : w.advance s true = (w.take m).moveOn s m := by
        simp only [advance, h.current, hstay, hcompositor, if_true, if_false]
        rfl
      rw [hadvance]
      exact Leaving.goesTo hs hdepth h.isLeaf ⟨htaken.tidy, htaken.stack, htaken.isOpen,
        htaken.holds, .leaf h.isLeaf (htaken.tidy.ceiling_eq_zero m h.isLeaf),
        fun _ _ => ⟨m, by simp, htaken.pos⟩, htaken.leaves hs hstay⟩

end Conform
