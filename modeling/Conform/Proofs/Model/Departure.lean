import Conform.Proofs.Model.Tracking
/-!
# Leaving a member of a steady model

When a walk leaves a member because nothing more of it comes, what is still to come can still come
behind it, and nothing is missed. Where a member that must occur has not begun, neither has its
sequence, and the walk leaves that as well.
-/

namespace Conform

open Components Walk Schema

section

variable (s : Schema) (root : GroupId) (counts ceilings : Tally)

/-- What is still to come where a walk looks for the next member of a group: no repetition has begun,
or one is under way, or a sequence is at the end of one. -/
inductive Seeks (f : Frame) (outer : List Frame) (ns : List QName) : Prop
  | fresh : f.matched = false →
      (IsOpen s counts ceilings f.group → ∃ done, (s.group f.group).members = done ++ f.rest ∧
        ((s.group f.group).compositor = .sequence → ∀ x ∈ done, Settled s root counts ceilings x) ∧
        ∀ x ∈ done, Passed s root x ns) →
      Idle s root counts f.group outer ns → Seeks f outer ns
  | within {done : List Member} : (s.group f.group).compositor = .sequence → f.matched = true →
      f.rest ≠ [] → (s.group f.group).members = done ++ f.rest →
      (∀ x ∈ done, Settled s root counts ceilings x) → (∃ x ∈ done, 0 < counts.count x) →
      IsOpen s counts ceilings f.group → Out s root counts (f :: outer) ns → Seeks f outer ns
  | complete : (s.group f.group).compositor = .sequence → f.matched = true → f.rest = [] →
      0 < counts.count (.group f.group) →
      Still s root (.group f.group) (counts.count (.group f.group)) (Out s root counts outer) ns →
      Seeks f outer ns

/-- What is still to come where a walk leaves a member: the member has occurred or is passed over in
a repetition that is under way, or it has not begun, and neither has the group. -/
inductive Leaves (f : Frame) (outer : List Frame) (done : List Member) (m : Member)
    (ns : List QName) : Prop
  | counted : (s.group f.group).compositor = .sequence → f.matched = true ∨ 0 < counts.count m →
      Ends s root counts m → Out s root counts (f :: outer) ns → Leaves f outer done m ns
  | group : (s.group f.group).compositor = .choice → m.isGroup = true → 0 < counts.count m →
      Ends s root counts m → Out s root counts (f :: outer) ns → Leaves f outer done m ns
  | leaf {r : Nat} : (s.group f.group).compositor = .choice → m.isGroup = false →
      0 < counts.count m → 1 ≤ r → r * (s.occurs m).min.toNat ≤ counts.count m →
      (∀ n ∈ (s.occurs m).max, counts.count m ≤ r * n.toNat) →
      Still s root (.group f.group) (counts.count (.group f.group) + r) (Out s root counts outer) ns →
      Leaves f outer done m ns
  | untouched : counts.count m = 0 → f.matched = false → (∀ x ∈ done, Passed s root x ns) →
      Passed s root m ns → Idle s root counts f.group outer ns → Leaves f outer done m ns

/-- A walk that leaves the member `m` of the group `f`. -/
structure Leaving (f : Frame) (outer : List Frame) (done : List Member) (m : Member)
    (ns : List QName) : Prop where
  tidy : Tidy s counts ceilings (some m)
  stack : Stack s root counts ceilings f.group outer
  isOpen : IsOpen s counts ceilings f.group
  holds : Holds s root counts ceilings f done m
  gauge : Gauge s counts ceilings m
  counted : f.matched = true → (s.group f.group).compositor = .sequence →
    ∃ x ∈ done ++ [m], 0 < counts.count x
  leaves : Leaves s root counts f outer done m ns

end

namespace Walk

/-- A walk that looks for the next member, with the children `ns` still to come. -/
structure Tracks (s : Schema) (root : GroupId) (w : Walk) (ns : List QName) : Prop where
  tidy : Tidy s w.counts w.ceilings none
  stack : Stack s root w.counts w.ceilings w.here.group w.outer
  seeks : Seeks s root w.counts w.ceilings w.here w.outer ns

/-- A walk that ends in the root group, with no child left. -/
structure IsDone (s : Schema) (root : GroupId) (w : Walk) (last : Option Member)
    (ns : List QName) : Prop where
  here : w.here.group = root
  nil : ns = []
  max : ∀ n ∈ (s.group root).occurs.max, w.count (.group root) ≤ n.toNat
  enough : (s.group root).occurs.min.toNat ≤ w.reach (.group root) ∨
    (s.group root).compositor = .sequence ∧ last = none

/-- Where a walk comes to behind a member. What is missing is excused. -/
def ClosesTo (s : Schema) (root : GroupId) (m : Member) (last : Option Member) (ns : List QName) :
    Option Bool × Walk → Prop
  | (some missing, w) => Tracks s root w ns ∧ (missing = true → s.IsExcused m)
  | (none, w) => IsDone s root w last ns

end Walk

variable {s : Schema} {root g : GroupId} {counts ceilings counts' ceilings' : Tally}
  {m x : Member} {f : Frame} {outer : List Frame} {done rest : List Member} {w : Walk}
  {ns : List QName} {n : QName} {u : List QName} {last : Option Member} {v : Version}

/-! ## Groups from their first member on -/

/-- A group that a walk goes through from its first member on. -/
theorem Seeks.restart (hs : s.Tractable root) (hin : s.Contains root (.group g))
    (h : Idle s root counts g outer ns) :
    Seeks s root counts ceilings ⟨g, items s v g, false⟩ outer ns := by
  refine .fresh rfl (fun hopen => ⟨[], ?_, ?_, ?_⟩) h
  · exact (items_of_ne_all (hs.compositor g hin) hopen.max_ne_zero).symm
  · exact fun _ => List.forall_mem_nil _
  · exact List.forall_mem_nil _

/-! ## Choices -/

/-- A choice of which an alternative that has occurred is counted. -/
theorem Leaving.tracks_counted (hs : s.Tractable root)
    (h : Leaving s root w.counts w.ceilings w.here w.outer done m ns)
    (hchoice : (s.group w.here.group).compositor = .choice) (hpos : 0 < w.count m)
    (hmax : (s.occurs m).max ≠ some 0)
    (hle : 2 ≤ (s.group w.here.group).occurs.min.toNat →
      leastOf (s.occurs m) (w.count m) ≤ greatestOf (s.occurs m) (w.ceilingOrCount m))
    (hstill : Still s root w.hereMember
      (w.count w.hereMember + leastOf (s.occurs m) (w.count m)) (Out s root w.counts w.outer) ns) :
    Tracks s root (w.closeInChoice s m).2 ns := by
  have hmem := h.holds.mem
  have hne : Member.group w.here.group ≠ m :=
    fun heq => hs.built.forest.ne_of_mem (heq ▸ hmem) rfl
  have hleast := leastOf_pos (o := s.occurs m) hpos
  rw [closeInChoice_pos hpos]
  have hcount : ((w.counts.add w.hereMember (leastOf (s.occurs m) (w.count m))).set m 0).count
      w.hereMember = w.count w.hereMember + leastOf (s.occurs m) (w.count m) := by
    simp [hereMember, hne, count]
  have hceiling : (w.ceilings.add w.hereMember (greatestOf (s.occurs m)
      (w.ceilingOrCount m))).count w.hereMember =
        w.ceilings.count w.hereMember + greatestOf (s.occurs m) (w.ceilingOrCount m) := by
    simp
  have hgauge := h.stack.gauge.count_alternative hs.built hchoice hmem hmax h.gauge hpos hcount
    hceiling hle
  have hsame : ∀ x, x ≠ .group w.here.group → x ∉ (s.group w.here.group).members →
      ((w.counts.add w.hereMember (leastOf (s.occurs m) (w.count m))).set m 0).count x =
          w.counts.count x ∧
        (w.ceilings.add w.hereMember (greatestOf (s.occurs m) (w.ceilingOrCount m))).count x =
          w.ceilings.count x := by
    intro x hx hxmem
    have hxm : x ≠ m := fun heq => hxmem (heq ▸ hmem)
    simp [hereMember, hx, hxm]
  obtain ⟨hstack, houter⟩ := h.stack.replace hs.built hsame hgauge
  refine ⟨?_, hstack, .restart hs h.stack.contains (.of_still ?_ ?_ ?_)⟩
  · refine .off (m := m) (h.tidy.mono (fun x hx => ?_) fun x hx => ?_) (by simp)
    all_goals
      have hxg : x ≠ .group w.here.group := by
        rintro rfl
        cases hx
    · by_cases hxm : x = m
      · exact .inr (by simp [hxm])
      · exact .inl (by simp [hereMember, hxm, hxg])
    · simp [hereMember, hxg]
  · rw [← hereMember, hcount]
    omega
  · rw [Out.congr houter, ← hereMember, hcount]
    exact hstill
  · intro hnil
    have hroot := h.stack
    rw [show w.outer = [] from hnil] at hroot
    exact hroot.eq_root

/-- The end of an alternative. -/
theorem Leaving.closes_choice (hs : s.Tractable root)
    (h : Leaving s root w.counts w.ceilings w.here w.outer done m ns)
    (hchoice : (s.group w.here.group).compositor = .choice) :
    Tracks s root (w.closeInChoice s m).2 ns ∧
      ((w.closeInChoice s m).1 = true → s.IsExcused m) := by
  have hin := h.stack.contains
  have hmem := h.holds.mem
  cases h.leaves with
  | counted hsequence =>
      rw [hchoice] at hsequence
      cases hsequence
  | group _ hgroup hpos hends hout =>
      have hsettled := hends.settled hs (hin.member hmem) h.gauge
      obtain ⟨a, b, rfl, hrow, hstill⟩ := hout
      rw [later, if_pos hchoice] at hrow
      rw [row_nil_iff.1 hrow, List.nil_append] at h ⊢
      have hmax : (s.occurs m).max ≠ some 0 := by
        intro hzero
        by_cases hfree : s.Free root m
        · exact hfree.max_ne_zero hzero
        · exact absurd hpos (Nat.not_lt.2 (hsettled.bound hfree 0 hzero))
      refine ⟨h.tracks_counted hs hchoice hpos hmax (fun hmin => ?_)
        (hstill.count_group hs hmem hsettled hpos), fun hmissing => ?_⟩
      · have hfree : ¬s.Free root m := fun hfree =>
          not_wide hmin (hfree.of_mem hs.built hmem).1
        rw [show leastOf (s.occurs m) (w.count m) = 1 from hsettled.leastOf_eq_one hpos hfree]
        exact Nat.le_max_left 1 _
      · rw [closeInChoice_pos hpos] at hmissing
        obtain ⟨sub, rfl⟩ : ∃ sub, m = .group sub := by
          cases m with
          | group sub => exact ⟨sub, rfl⟩
          | element e => cases hgroup
          | wildcard y => cases hgroup
        exact hends.excused_alternative hs hin hmem hchoice h.gauge hpos hmissing
  | @leaf r _ hleaf hpos hr hmin hle hstill =>
      have hceiling : w.ceilingOrCount m = w.count m := by
        unfold ceilingOrCount
        exact if_pos (h.tidy.ceiling_eq_zero m hleaf)
      have hmax : (s.occurs m).max ≠ some 0 := by
        intro hzero
        have hnone := hle 0 hzero
        exact absurd hpos (Nat.not_lt.2 (by simpa using hnone))
      refine ⟨h.tracks_counted hs hchoice hpos hmax (fun _ => ?_)
        (hstill.count_leaf hs hin hchoice hmem hmax hpos hr hmin hle), fun hmissing => ?_⟩
      · rw [hceiling]
        exact leastOf_le_greatestOf hpos hr hmin hle
      · rw [closeInChoice_pos hpos, hceiling] at hmissing
        have hless : w.count m < (s.occurs m).min.toNat := by
          simpa [Occurs.isMissing] using hmissing
        have hone := (Nat.le_mul_of_pos_left _ hr).trans hmin
        exact absurd hless (Nat.not_lt.2 hone)
  | untouched hzero hmatched hdone hm hidle =>
      rw [closeInChoice_zero hzero]
      refine ⟨⟨h.tidy.off hzero, h.stack, .fresh hmatched (fun _ => ⟨done ++ [m], ?_, ?_, ?_⟩) hidle⟩,
        fun hmissing => by cases hmissing⟩
      · rw [h.holds.members, List.append_assoc]
        rfl
      · intro hsequence
        rw [hchoice] at hsequence
        cases hsequence
      · intro x hx
        rcases List.mem_append.1 hx with hx | hx
        · exact hdone x hx
        · exact List.mem_singleton.1 hx ▸ hm

/-! ## Sequences -/

/-- The end of a repetition of a sequence. -/
theorem Walk.Tracks.of_countSequence (hs : s.Tractable root)
    (htidy : Tidy s w.counts w.ceilings none)
    (hstack : Stack s root w.counts w.ceilings w.here.group w.outer)
    (hsequence : (s.group w.here.group).compositor = .sequence) (hmatched : w.here.matched = true)
    (hrest : w.here.rest = [])
    (hsettled : ∀ x ∈ (s.group w.here.group).members, Settled s root w.counts w.ceilings x)
    (hcounted : ∃ x ∈ (s.group w.here.group).members, 0 < w.count x)
    (hstill : Still s root w.hereMember (w.count w.hereMember + 1) (Out s root w.counts w.outer) ns) :
    Tracks s root (w.countSequence s) ns := by
  obtain ⟨hgauge, hpos, hmore⟩ := hstill.count_sequence hs hstack.contains hsequence hsettled
    hcounted hstack.gauge
  obtain ⟨counts', ceilings', heq, hother⟩ := w.countSequence_eq s
  rw [heq] at hgauge hpos hmore ⊢
  obtain ⟨hstack', houter⟩ := hstack.replace hs.built (fun x hx _ => hother x hx) hgauge
  have hleaf : ∀ x : Member, x.isGroup = false → x ≠ .group w.here.group := by
    rintro x hx rfl
    cases hx
  refine ⟨htidy.mono (fun x hx => .inl (hother x (hleaf x hx)).1)
    fun x hx => (hother x (hleaf x hx)).2, hstack', .complete hsequence hmatched hrest hpos ?_⟩
  rw [Out.congr houter]
  exact hmore

/-- The end of a member of a sequence in which something has occurred. -/
theorem Leaving.closes_sequence (hs : s.Tractable root)
    (h : Leaving s root w.counts w.ceilings w.here w.outer done m ns)
    (hsequence : (s.group w.here.group).compositor = .sequence)
    (hcounted : w.here.matched = true ∨ 0 < w.count m) (hends : Ends s root w.counts m)
    (hout : Out s root w.counts (w.here :: w.outer) ns) :
    Tracks s root (closeInSequence s { w with here := { w.here with matched := true } } m).2 ns ∧
      ((closeInSequence s { w with here := { w.here with matched := true } } m).1 = true →
        s.IsExcused m) := by
  have hin := h.stack.contains
  have hmem := h.holds.mem
  have hmembers := h.holds.members
  have hne : m ≠ .group w.here.group := fun heq => hs.built.forest.ne_of_mem (heq ▸ hmem) rfl
  have hsettled : ∀ x ∈ done ++ [m], Settled s root w.counts w.ceilings x := by
    intro x hx
    rcases List.mem_append.1 hx with hx | hx
    · exact h.holds.settled hsequence x hx
    · exact List.mem_singleton.1 hx ▸ hends.settled hs (hin.member hmem) h.gauge
  have hsome : ∃ x ∈ done ++ [m], 0 < w.count x := by
    rcases hcounted with hmatched | hpos
    · exact h.counted hmatched hsequence
    · exact ⟨m, by simp, hpos⟩
  have htidy := h.tidy.off_sequence hs.built hsequence hmem
  have hlast : (s.group w.here.group).members.getLast? = some m ↔ w.here.rest = [] := by
    have hnodup := hs.built.forest.nodup w.here.group
    rw [hmembers] at hnodup ⊢
    exact getLast?_eq_some_iff hnodup
  have hmissing : (s.occurs m).isMissing (w.reach m) = true → s.IsExcused m :=
    hends.excused hs hin hmem hsequence
  unfold closeInSequence
  dsimp only
  by_cases hrest : w.here.rest = []
  · rw [if_pos (hlast.2 hrest)]
    have hwhole : (s.group w.here.group).members = done ++ [m] := by rw [hmembers, hrest]
    obtain ⟨a, b, rfl, hrow, hstill⟩ := hout
    rw [later, if_neg (by simp [hsequence]), hrest] at hrow
    rw [row_nil_iff.1 hrow, List.nil_append]
    constructor
    · exact Tracks.of_countSequence hs htidy h.stack hsequence rfl hrest (hwhole ▸ hsettled)
        (hwhole ▸ hsome) hstill
    · obtain ⟨counts', ceilings', heq, hother⟩ :=
        Walk.countSequence_eq s { w with here := { w.here with matched := true } }
      intro hflag
      refine hmissing ?_
      rw [heq] at hflag
      simpa only [reach, (hother m hne).1, (hother m hne).2] using hflag
  · rw [if_neg fun hyes => hrest (hlast.1 hyes)]
    refine ⟨⟨htidy, h.stack, .within hsequence rfl hrest ?_ hsettled hsome h.isOpen hout⟩, hmissing⟩
    rw [List.append_assoc]
    exact hmembers

/-! ## Members that must occur -/

/-- No repetition of a sequence begins with a name if its members up to one that must occur do
not. -/
theorem Schema.Tractable.not_once_of_member (hs : s.Tractable root)
    (hin : s.Contains root (.group g)) (hsequence : (s.group g).compositor = .sequence)
    (hmembers : (s.group g).members = done ++ m :: rest)
    (hdone : ∀ x ∈ done, Passed s root x ns) (hm : Passed s root m ns)
    (hempty : s.isEmptiable m = false) :
    ∀ n ∈ ns.head?, ∀ u, ¬s.Once (s.freed root) (.group g) (n :: u) := by
  intro n hn u honce
  have hrow := honce.of_sequence hsequence
  rw [hmembers] at hrow
  have hmem : m ∈ (s.group g).members := by simp [hmembers]
  clear hmembers
  induction done generalizing u with
  | nil =>
      obtain ⟨a, b, heq, ha, -⟩ := row_cons_iff.1 hrow
      cases a with
      | nil =>
          have hyes := ((hs.built.widened_freed root).words_nil_iff hs.built
            hasAlternatives_freed (hin.member hmem)).1 ha
          rw [hempty] at hyes
          cases hyes
      | cons n' a =>
          obtain ⟨rfl, -⟩ := List.cons.inj heq
          exact hm n hn a ha
  | cons x done ih =>
      obtain ⟨a, b, heq, ha, hb⟩ := row_cons_iff.1 hrow
      cases a with
      | nil =>
          rw [List.nil_append] at heq
          exact ih (fun y hy => hdone y (List.mem_cons_of_mem _ hy)) u (heq ▸ honce) (heq ▸ hb)
      | cons n' a =>
          obtain ⟨rfl, -⟩ := List.cons.inj heq
          exact hdone x List.mem_cons_self n hn a ha

/-- A repetition of a sequence with a member that must occur is not empty. -/
theorem Schema.Tractable.not_once_nil (hs : s.Tractable root) (hin : s.Contains root (.group g))
    (hsequence : (s.group g).compositor = .sequence) (hm : m ∈ (s.group g).members)
    (hempty : s.isEmptiable m = false) : ¬s.Once (s.freed root) (.group g) [] := by
  intro honce
  have hhollow := ((hs.built.widened_freed root).once_nil_iff hs.built hasAlternatives_freed
    hin).1 honce
  unfold isHollow at hhollow
  rw [hsequence] at hhollow
  have hyes := List.all_eq_true.1 hhollow m hm
  rw [hempty] at hyes
  cases hyes

/-! ## Groups that end -/

theorem Walk.ClosesTo.imp {r : Option Bool × Walk} (h : ClosesTo s root x last ns r)
    (hexcused : s.IsExcused x → s.IsExcused m) : ClosesTo s root m last ns r := by
  obtain ⟨missing, w⟩ := r
  cases missing with
  | none => exact h
  | some missing => exact ⟨h.1, fun hmissing => hexcused (h.2 hmissing)⟩

/-- A group ends in the group around it. -/
theorem Stack.leaving (hs : s.Tractable root) (htidy : Tidy s counts ceilings none)
    (hstack : Stack s root counts ceilings g (f :: outer))
    (hidle : Idle s root counts g (f :: outer) ns)
    (hends : Still s root (.group g) (counts.count (.group g)) (Out s root counts (f :: outer)) ns →
      Ends s root counts (.group g) ∧ Out s root counts (f :: outer) ns)
    (hpassed : counts.count (.group g) = 0 → Passed s root (.group g) ns) :
    ∃ done, Leaving s root counts ceilings f outer done (.group g) ns := by
  cases hstack with
  | @nested _ _ _ done hstack hopen hholds hmatched hgauge =>
    refine ⟨done, htidy.on _, hstack, hopen, hholds, hgauge, fun htrue _ => ?_, ?_⟩
    · obtain ⟨-, x, hx, hpos⟩ := hmatched htrue
      exact ⟨x, by simp [hx], hpos⟩
    · cases hidle with
      | going hlive hstill =>
          obtain ⟨hend, hout⟩ := hends hstill
          cases hc : (s.group f.group).compositor with
          | all => exact absurd hc (hs.compositor _ hstack.contains)
          | sequence => exact .counted hc hlive.symm hend hout
          | choice =>
              refine .group hc rfl (hlive.resolve_right fun htrue => ?_) hend hout
              have hsequence := (hmatched htrue).1
              rw [hc] at hsequence
              cases hsequence
      | @fresh _ _ _ before _ hzero hunmatched hmembers hbefore hidle =>
          obtain rfl : before = done :=
            List.append_cancel_right (hmembers.symm.trans hholds.members)
          exact .untouched hzero hunmatched hbefore (hpassed hzero) hidle

/-- The root group ends with no child left, where enough repetitions are there or no member was
looked for. -/
theorem Walk.IsDone.of_idle (hs : s.Tractable root) (hhere : w.here.group = root)
    (hidle : Idle s root w.counts root [] ns)
    (hends : Still s root (.group root) (w.count (.group root)) (Out s root w.counts []) ns →
      Ends s root w.counts (.group root) ∧ Out s root w.counts [] ns)
    (hlast : last = none ∨ (s.group root).occurs.min.toNat ≤ w.reach (.group root)) :
    IsDone s root w last ns := by
  cases hidle with
  | root hne hstill =>
    obtain ⟨hend, hnil⟩ := hends hstill
    obtain rfl : ns = [] := hnil
    have hpos : 1 ≤ w.count (.group root) :=
      Nat.one_le_iff_ne_zero.2 fun hzero => hne hzero rfl
    have hreach : w.count (.group root) ≤ w.reach (.group root) := Nat.le_max_left _ _
    refine ⟨hhere, rfl, fun n hn => ?_, ?_⟩
    · obtain ⟨j, hadmits, -⟩ := hend
      rw [← max_freed_root hs.built] at hn
      exact (Nat.le_add_right _ _).trans (hadmits.2 n hn)
    · by_cases hmin : (s.group root).occurs.min.toNat ≤ w.count (.group root)
      · exact .inl (hmin.trans hreach)
      obtain ⟨g, heq, hhollow⟩ := hend.hollow_of_lt hs .root hs.not_isVoid (Nat.not_le.1 hmin)
      obtain rfl := Member.group.inj heq
      rcases hs.steady.hollow root .root hhollow with hzero | ⟨hsequence, -⟩ | ⟨hone, -⟩
      · exact .inl (hzero ▸ Nat.zero_le _)
      · exact hlast.symm.imp_right fun hnone => ⟨hsequence, hnone⟩
      · exact .inl (hone ▸ hpos.trans hreach)

/-! ## The end of a member -/

/-- A walk that leaves a member comes to the next one, unless the member must occur in a sequence
that has not begun. -/
theorem Leaving.closes_or (last : Option Member) (hs : s.Tractable root)
    (h : Leaving s root w.counts w.ceilings w.here outer done m ns) :
    ClosesTo s root m last ns (closeItem s outer m w) ∨
      ((s.group w.here.group).compositor = .sequence ∧ w.here.matched = false ∧ w.count m = 0 ∧
        s.isEmptiable m = false ∧ (∀ x ∈ done, Passed s root x ns) ∧ Passed s root m ns ∧
        Idle s root w.counts w.here.group outer ns) := by
  have hin := h.stack.contains
  cases hc : (s.group w.here.group).compositor with
  | all => exact absurd hc (hs.compositor _ hin)
  | choice =>
      rw [closeItem_choice hc]
      exact .inl (Leaving.closes_choice (w := { w with outer }) hs h hc)
  | sequence =>
      cases h.leaves with
      | counted _ hcounted hends hout =>
          rw [closeItem_counted hc hcounted]
          exact .inl (Leaving.closes_sequence (w := { w with outer }) hs h hc hcounted hends hout)
      | group hchoice | leaf hchoice =>
          rw [hc] at hchoice
          cases hchoice
      | untouched hzero hmatched hdone hm hidle =>
          cases hempty : s.isEmptiable m with
          | false => exact .inr ⟨rfl, hmatched, hzero, rfl, hdone, hm, hidle⟩
          | true =>
              rw [closeItem_emptiable hc hmatched hzero hempty]
              refine .inl ⟨⟨h.tidy.off hzero, h.stack, .fresh hmatched (fun _ =>
                ⟨done ++ [m], ?_, fun _ x hx => ?_, fun x hx => ?_⟩) hidle⟩, fun hmissing => by
                  cases hmissing⟩
              · rw [List.append_assoc]
                exact h.holds.members
              · rcases List.mem_append.1 hx with hx | hx
                · exact h.holds.settled hc x hx
                · rw [List.mem_singleton.1 hx]
                  exact ⟨h.gauge, fun _ n _ => hzero ▸ Nat.zero_le _, fun _ => hempty⟩
              · rcases List.mem_append.1 hx with hx | hx
                · exact hdone x hx
                · exact List.mem_singleton.1 hx ▸ hm

/-- Where a walk leaves a member, it comes to the next one or to its end. A sequence that has not
begun is left with its first member that must occur, and so on outwards. -/
theorem Leaving.closes (hs : s.Tractable root) : ∀ {outer : List Frame} {m : Member} {w : Walk}
    {done : List Member}, Leaving s root w.counts w.ceilings w.here outer done m ns →
      ClosesTo s root m last ns (closeItem s outer m w) := by
  intro outer
  induction outer with
  | nil =>
      intro m w done h
      rcases h.closes_or last hs with hcloses |
        ⟨hsequence, hmatched, hzero, hempty, hdone, hm, hidle⟩
      · exact hcloses
      have hroot : w.here.group = root := h.stack.eq_root
      have hnone := hs.not_once_of_member h.stack.contains hsequence h.holds.members hdone hm hempty
      rw [hroot] at hidle hnone hsequence
      have hmember : w.hereMember = .group root := congrArg Member.group hroot
      have hmem : m ∈ (s.group root).members := hroot ▸ h.holds.mem
      have hmin : (s.group root).occurs.min.toNat ≤ w.reach (.group root) := by
        cases hidle with
        | root _ hstill =>
          have hend : Ends s root w.counts (.group root) := (hstill.pass_group hnone).1
          have henough := hend.enough.resolve_right (hs.not_once_nil .root hsequence hmem hempty)
          rw [min_freed hs.not_isVoid] at henough
          exact henough.trans (Nat.le_max_left _ _)
      rw [closeItem_unmatched (by rw [hroot]; exact hsequence) hmatched hzero hempty]
      dsimp only
      rw [hroot, hmember, if_pos hmin]
      exact IsDone.of_idle (w := { w with outer := [] }) hs hroot hidle
        (fun hstill => hstill.pass_group hnone) (.inr hmin)
  | cons f outer ih =>
      intro m w done h
      rcases h.closes_or last hs with hcloses |
        ⟨hsequence, hmatched, hzero, hempty, hdone, hm, hidle⟩
      · exact hcloses
      have hnone := hs.not_once_of_member h.stack.contains hsequence h.holds.members hdone hm hempty
      obtain ⟨done', hleaving⟩ := h.stack.leaving hs (h.tidy.off hzero) hidle
        (fun hstill => hstill.pass_group hnone) fun _ => passed_group hnone
      rw [closeItem_unmatched hsequence hmatched hzero hempty]
      have hcloses : ClosesTo s root w.hereMember last ns (closeItem s outer w.hereMember
          { w with here := f, outer := f :: outer }) := ih hleaving
      refine hcloses.imp fun hexcused => ?_
      obtain ⟨g, heq, -, hmin⟩ := hexcused
      have hm' := hmin m (Member.group.inj heq ▸ h.holds.mem)
      rw [hs.built.isEmptiable_of_min hm'] at hempty
      cases hempty

end Conform
