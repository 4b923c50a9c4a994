import Conform.Proofs.Model.Balance
/-!
# Ceilings

A ceiling is to be the greatest number of repetitions for which the children of a group may stand. A
sequence raises it only where its repetitions are estimated, and not where it is sure of one, so the
count may get ahead of it. Where the bounds of the members leave a sequence no choice between the
two, and those of the alternatives of a choice have no gaps, the count never does.
-/

namespace Conform

/-! ## Groups whose repetitions are estimated -/

namespace Schema

variable (s : Schema) (root : GroupId)

/-- A member of a sequence from which repetitions may be estimated: it may be the first one to
occur, and those behind it can be empty. -/
def Heads (g : GroupId) (m : Member) : Prop :=
  ∃ before after, (s.group g).members = before ++ m :: after ∧
    (∀ x ∈ before, s.MayLack root g x) ∧ ∀ x ∈ after, s.isEmptiable x = true

/-- Groups whose members are never counted for more than one repetition. -/
inductive CountsOnce : GroupId → Prop
  | choice {g : GroupId} : (s.group g).compositor = .choice →
      (∀ m ∈ (s.group g).members, m.isGroup = false → (s.occurs m).isAmbiguous = false) →
      (∀ sub, .group sub ∈ (s.group g).members → (s.group sub).occurs.isOver 1 = true) →
      (∀ sub, .group sub ∈ (s.group g).members → CountsOnce sub) → CountsOnce g
  | sequence {g : GroupId} : (s.group g).compositor = .sequence →
      (∀ m, s.Heads root g m → m.isGroup = false →
        (s.occurs m).isAmbiguous = false ∨ (s.occurs m).isOver 1 = true) →
      (∀ sub, s.Heads root g (.group sub) → (s.group sub).occurs.isOver 1 = true) →
      (∀ sub, s.Heads root g (.group sub) → CountsOnce sub) → CountsOnce g

/-- Sequences that are sure of each repetition. -/
structure IsSure (g : GroupId) : Prop where
  compositor : (s.group g).compositor = .sequence
  single : ∀ m, s.Heads root g m → (s.occurs m).isOver 1 = true
  group : ∀ sub, s.Heads root g (.group sub) → s.CountsOnce root sub

/-- The maximum of a member is a number of repetitions to go by. -/
def IsLimited (m : Member) : Prop := ∃ n ∈ (s.occurs m).max, 0 < n.toNat

/-- Groups whose ceiling is an upper estimate. -/
inductive Estimates : GroupId → Prop
  | all {g : GroupId} : (s.group g).compositor = .all → Estimates g
  | choice {g : GroupId} : (s.group g).compositor = .choice →
      (∀ m ∈ (s.group g).members, m.isGroup = false → s.IsLimited m →
        (s.occurs m).IsGapless ∨ (s.occurs m).isAmbiguous = false) →
      (∀ sub, .group sub ∈ (s.group g).members → s.IsLimited (.group sub) →
        (s.group sub).occurs.IsGapless ∨ ¬s.Overruns sub) →
      (∀ sub, .group sub ∈ (s.group g).members → s.IsLimited (.group sub) → Estimates sub) →
      Estimates g
  /-- A sequence that occurs once at most. -/
  | once {g : GroupId} : (s.group g).compositor = .sequence →
      (s.group g).occurs.isOver 1 = true →
      (∀ sub, s.Heads root g (.group sub) → s.IsLimited (.group sub) → Estimates sub) →
      Estimates g
  | sure {g : GroupId} : s.IsSure root g → Estimates g

/-- What the tallies of a group keep to. -/
structure InBounds (g : GroupId) (count ceiling : Nat) : Prop where
  le_max : (s.group g).compositor ≠ .all → ¬s.Overruns g →
    ∀ n ∈ (s.group g).occurs.max, count ≤ n.toNat
  le_ceiling : s.Estimates root g → ceiling = 0 ∨ count ≤ ceiling
  choice : (s.group g).compositor = .choice → s.Estimates root g → count ≤ ceiling
  sure : s.IsSure root g → ceiling = 0
  le_one : s.CountsOnce root g → (s.group g).occurs.isOver 1 = true → count ≤ 1 ∧ ceiling ≤ 1

/-- The maximum of a leaf is kept in its group. -/
def KeepsMax (m : Member) : Prop :=
  ∀ g, m ∈ (s.group g).members → (s.group g).compositor ≠ .all ∧
    ((s.group g).compositor = .choice → (s.occurs m).isAmbiguous = false)

end Schema

theorem Schema.Heads.mem {s : Schema} {root g : GroupId} {m : Member} (h : s.Heads root g m) :
    m ∈ (s.group g).members := by
  obtain ⟨before, after, hmembers, -, -⟩ := h
  rw [hmembers]
  simp

theorem Member.exists_group {m : Member} (h : m.isGroup = true) : ∃ g, m = .group g := by
  cases m with
  | group g => exact ⟨g, rfl⟩
  | element e => cases h
  | wildcard x => cases h

namespace Occurs

theorem max_of_isAmbiguous {o : Occurs} (h : o.isAmbiguous = false) : o.max = some o.min := by
  simpa [isAmbiguous] using h

end Occurs

variable {s : Schema} {root g : GroupId} {m : Member} {k e : Nat}

namespace Schema.InBounds

theorem zero : s.InBounds root g 0 0 :=
  ⟨fun _ _ _ _ => Nat.zero_le _, fun _ => .inl rfl, fun _ _ => le_rfl, fun _ => rfl,
    fun _ _ => ⟨Nat.zero_le _, Nat.zero_le _⟩⟩

theorem mono (h : s.InBounds root g k e) {k' : Nat} (hle : k' ≤ k) : s.InBounds root g k' e :=
  ⟨fun hne hno n hn => hle.trans (h.le_max hne hno n hn),
    fun hg => (h.le_ceiling hg).imp_right hle.trans,
    fun hchoice hg => hle.trans (h.choice hchoice hg), h.sure,
    fun hg hone => ⟨hle.trans (h.le_one hg hone).1, (h.le_one hg hone).2⟩⟩

end Schema.InBounds

/-! ## Repetitions for which a member stands -/

namespace Walk

variable {w : Walk}

/-- An alternative within its maximum stands for one repetition at least. -/
theorem leastInChoice_eq_one (hpos : 0 < w.count m)
    (hmax : ∀ n ∈ (s.occurs m).max, 0 < n.toNat → w.count m ≤ n.toNat) :
    w.leastInChoice s m = 1 := by
  unfold leastInChoice
  split
  · rfl
  · rename_i n hn
    split
    · rfl
    · rename_i hne
      have hn0 : 0 < n.toNat := Nat.pos_of_ne_zero fun hzero => hne (UInt32.toNat_inj.1 hzero)
      have hone := ceilDiv_le_one hn0 (hmax n hn hn0)
      have hpos := ceilDiv_pos hpos hn0
      omega

theorem leastInSequence_eq_one (hpos : 0 < w.count m)
    (hmax : ∀ n ∈ (s.occurs m).max, 0 < n.toNat → w.count m ≤ n.toNat) :
    w.leastInSequence s m = 1 := by
  have hdiv : w.count m / w.most s m ≤ 1 := by
    unfold most
    split
    · rename_i n hn
      split
      · exact (Nat.div_self hpos).le
      · rename_i hne
        have hn0 : 0 < n.toNat := Nat.pos_of_ne_zero fun hzero => hne (UInt32.toNat_inj.1 hzero)
        exact (Nat.div_le_div_right (hmax n hn hn0)).trans (Nat.div_self hn0).le
    · exact (Nat.div_self hpos).le
  exact Nat.max_eq_left hdiv

theorem one_le_greatest (w : Walk) (m : Member) : 1 ≤ w.greatest s m := Nat.le_max_left _ _

theorem greatest_eq_one (h : w.ceilingOrCount m ≤ max 1 (s.occurs m).min.toNat) :
    w.greatest s m = 1 :=
  Nat.max_eq_left (Nat.div_le_of_le_mul (by rwa [Nat.mul_one]))

/-- An alternative whose bounds have no gap stands for no fewer repetitions at most. -/
theorem leastInChoice_le_greatest (hgap : (s.occurs m).IsGapless)
    (hceiling : w.count m ≤ w.ceilingOrCount m) : w.leastInChoice s m ≤ w.greatest s m := by
  unfold leastInChoice
  split
  · exact w.one_le_greatest m
  · rename_i n hn
    split
    · exact w.one_le_greatest m
    · rename_i hne
      have hn0 : 0 < n.toNat := Nat.pos_of_ne_zero fun hzero => hne (UInt32.toNat_inj.1 hzero)
      by_cases htwo : 2 ≤ ceilDiv (w.count m) n.toNat
      · refine le_trans ?_ (Nat.le_max_right _ _)
        refine (Nat.le_div_iff_mul_le (by omega)).2 (le_trans ?_ hceiling)
        rcases Nat.le_total (s.occurs m).min.toNat 1 with hmin | hmin
        · rw [Nat.max_eq_left hmin, Nat.mul_one]
          exact ceilDiv_le _ hn0
        · rw [Nat.max_eq_right hmin]
          exact ceilDiv_mul_le hn0 (hgap n hn) htwo
      · have hone := w.one_le_greatest (s := s) m
        omega

theorem leastInSequence_le_greatest (hs : s.Built) (hpos : 0 < w.count m)
    (hceiling : s.IsLimited m → w.count m ≤ w.ceilingOrCount m) :
    w.leastInSequence s m ≤ w.greatest s m := by
  by_cases hlimited : s.IsLimited m
  · obtain ⟨n, hn, hn0⟩ := id hlimited
    have hmost : w.most s m = n.toNat := by
      rw [Option.mem_def] at hn
      unfold most
      rw [hn]
      refine if_neg ?_
      rintro rfl
      exact absurd hn0 (Nat.lt_irrefl 0)
    have hmin := hs.min_le_max m n hn
    unfold leastInSequence greatest
    rw [hmost]
    refine max_le_max_left 1 (Nat.div_le_div (hceiling hlimited) (max_le hn0 hmin) ?_)
    omega
  · rw [leastInSequence_eq_one hpos fun n hn hn0 => absurd ⟨n, hn, hn0⟩ hlimited]
    exact w.one_le_greatest m

end Walk

/-! ## What a walk has counted -/

/-- All tallies keep to what is known of their particles. -/
structure Accounted (s : Schema) (root : GroupId) (counts ceilings : Tally) : Prop where
  leaf : ∀ m, m.isGroup = false → s.KeepsMax m →
    ∀ n ∈ (s.occurs m).max, counts.count m ≤ max 1 n.toNat
  group : ∀ g, s.InBounds root g (counts.count (.group g)) (ceilings.count (.group g))

theorem keepsMax_of_mem (hs : s.Built) (hm : m ∈ (s.group g).members)
    (hne : (s.group g).compositor ≠ .all)
    (hsure : (s.group g).compositor = .choice → (s.occurs m).isAmbiguous = false) :
    s.KeepsMax m := by
  intro g' hm'
  obtain rfl := hs.forest.group_unique hm hm'
  exact ⟨hne, hsure⟩

variable {counts ceilings : Tally}

namespace Accounted

variable {counts' ceilings' : Tally} {sub : GroupId}

theorem zero : Accounted s root Tally.zero Tally.zero :=
  ⟨fun _ _ _ _ _ => Nat.zero_le _, fun _ => .zero⟩

/-- The tallies of one group change, and what else is counted becomes less. -/
theorem change (h : Accounted s root counts ceilings)
    (hother : ∀ x, x ≠ .group g → counts'.count x ≤ counts.count x ∧
      ceilings'.count x = ceilings.count x)
    (hg : s.InBounds root g (counts'.count (.group g)) (ceilings'.count (.group g))) :
    Accounted s root counts' ceilings' := by
  constructor
  · intro m hm hkeeps n hn
    refine le_trans (hother m ?_).1 (h.leaf m hm hkeeps n hn)
    rintro rfl
    cases hm
  · intro sub
    by_cases hsub : sub = g
    · subst hsub
      exact hg
    · obtain ⟨hcount, hceiling⟩ := hother (.group sub) fun heq => hsub (Member.group.inj heq)
      rw [hceiling]
      exact (h.group sub).mono hcount

/-- A member of a bounded group that is not counted beyond its maximum is not so itself. -/
theorem count_le (h : Accounted s root counts ceilings) (hs : s.Built) (hv : s.version = .v10)
    (hm : m ∈ (s.group g).members) (hne : (s.group g).compositor ≠ .all)
    (hmax : (s.group g).occurs.max ≠ none) (hno : ¬s.Overruns g) :
    ∀ n ∈ (s.occurs m).max, 0 < n.toNat → counts.count m ≤ n.toNat := by
  intro n hn hn0
  cases hleaf : m.isGroup with
  | false =>
      have hkeeps : s.KeepsMax m := keepsMax_of_mem hs hm hne fun hchoice => by
        by_contra hambiguous
        rw [Bool.not_eq_false] at hambiguous
        refine hno (.leaf hmax hchoice hm hleaf hambiguous fun hnone => ?_)
        rw [hnone] at hn
        cases hn
      have hle := h.leaf m hleaf hkeeps n hn
      rwa [Nat.max_eq_right hn0] at hle
  | true =>
      cases m with
      | group sub =>
          exact (h.group sub).le_max (hs.compositor_ne_all hv hm)
            (fun hover => hno (.group hmax hm hover)) n hn
      | element e => cases hleaf
      | wildcard x => cases hleaf

end Accounted

/-- The first member that has occurred in a repetition of a sequence. -/
theorem PaidOff.heads {before after : List Member}
    (h : PaidOff s root counts ceilings g (s.group g).members k)
    (hmembers : (s.group g).members = before ++ m :: after)
    (hbefore : ∀ x ∈ before, counts.count x = 0) (hafter : ∀ x ∈ after, s.isEmptiable x = true) :
    s.Heads root g m := by
  refine ⟨before, after, hmembers, fun x hx => ?_, hafter⟩
  obtain ⟨first, last, rfl⟩ := List.append_of_mem hx
  rw [List.append_assoc, List.cons_append] at hmembers
  exact h.mayLack hmembers (fun z hz => hbefore z (List.mem_append_left _ hz)) (hbefore x hx)

namespace Walk

variable {w : Walk} {n : Nat}

/-- A group whose ceiling is an upper estimate has no more occurrences than are estimated. -/
theorem count_le_ceilingOrCount (h : Accounted s root w.counts w.ceilings)
    (hg : s.Estimates root g) : w.count (.group g) ≤ w.ceilingOrCount (.group g) := by
  have hceiling := (h.group g).le_ceiling hg
  change w.counts.count _ ≤ _
  unfold ceilingOrCount
  split
  · exact le_rfl
  · rename_i hne
    exact hceiling.resolve_left hne

theorem le_one_of_countsOnce (h : Accounted s root w.counts w.ceilings)
    (hg : s.CountsOnce root g) (hone : (s.group g).occurs.isOver 1 = true) :
    w.count (.group g) ≤ 1 ∧ w.ceilingOrCount (.group g) ≤ 1 := by
  obtain ⟨hcount, hceiling⟩ := (h.group g).le_one hg hone
  refine ⟨hcount, ?_⟩
  unfold ceilingOrCount
  split
  · exact hcount
  · exact hceiling

theorem ceilingOrCount_leaf (h : Tidy s w.counts w.ceilings (some m)) {x : Member}
    (hleaf : x.isGroup = false) : w.ceilingOrCount x = w.count x :=
  if_pos (h.ceiling_eq_zero x hleaf)

/-- The tallies of an open group that occurs once at most are zero. -/
theorem tallies_eq_zero (h : IsOpen s w.counts w.ceilings g)
    (hone : (s.group g).occurs.isOver 1 = true) :
    w.counts.count (.group g) = 0 ∧ w.ceilings.count (.group g) = 0 := by
  obtain ⟨n, hn, hle⟩ := Occurs.isOver_iff.1 hone
  have hlt := h n hn
  omega

/-! ### Choices -/

namespace Busy

variable {y : Member}

theorem leaf_le (h : w.Busy s m n) (hs : s.Built)
    (haccounted : Accounted s w.root w.counts w.ceilings)
    (hy : y ∈ (s.group w.here.group).members) (hleaf : y.isGroup = false)
    (hsure : (s.group w.here.group).compositor = .choice → (s.occurs y).isAmbiguous = false) :
    ∀ k ∈ (s.occurs y).max, w.count y ≤ max 1 k.toNat :=
  haccounted.leaf y hleaf (keepsMax_of_mem hs hy h.ne_all hsure)

/-- A member that is not ambiguous is estimated to occur as often as it is counted. -/
theorem greatest_of_sure (h : w.Busy s m n) (hs : s.Built)
    (haccounted : Accounted s w.root w.counts w.ceilings)
    (hy : y ∈ (s.group w.here.group).members) (hleaf : y.isGroup = false)
    (hsure : (s.occurs y).isAmbiguous = false) : w.greatest s y = 1 := by
  refine greatest_eq_one ?_
  rw [ceilingOrCount_leaf h.tidy hleaf]
  exact h.leaf_le hs haccounted hy hleaf (fun _ => hsure) _ (Occurs.max_of_isAmbiguous hsure)

/-- A choice whose ceiling is an upper estimate raises it no less than its count. -/
theorem leastInChoice_le (h : w.Busy s m n) (hs : s.Built) (hv : s.version = .v10)
    (haccounted : Accounted s w.root w.counts w.ceilings)
    (hchoice : (s.group w.here.group).compositor = .choice) (hpos : 0 < w.count m)
    (hg : s.Estimates w.root w.here.group) : w.leastInChoice s m ≤ w.greatest s m := by
  have hone : (∀ k ∈ (s.occurs m).max, 0 < k.toNat → w.count m ≤ k.toNat) →
      w.leastInChoice s m ≤ w.greatest s m := fun hle =>
    (leastInChoice_eq_one hpos hle).trans_le (w.one_le_greatest m)
  by_cases hlimited : s.IsLimited m
  · have hm := h.mem
    cases hg with
    | all hall => exact absurd hall h.ne_all
    | once hsequence => exact absurd (hchoice.symm.trans hsequence) nofun
    | sure hsure => exact absurd (hchoice.symm.trans hsure.compositor) nofun
    | choice _ hleaves hgroups hsub =>
        cases hleaf : m.isGroup with
        | false =>
            rcases hleaves m hm hleaf hlimited with hgap | hsure
            · exact leastInChoice_le_greatest hgap (ceilingOrCount_leaf h.tidy hleaf).ge
            · refine hone fun k hk hk0 => ?_
              have hle := h.leaf_le hs haccounted hm hleaf (fun _ => hsure) k hk
              rwa [Nat.max_eq_right hk0] at hle
        | true =>
            obtain ⟨sub, rfl⟩ := Member.exists_group hleaf
            rcases hgroups sub hm hlimited with hgap | hno
            · exact leastInChoice_le_greatest hgap
                (count_le_ceilingOrCount haccounted (hsub sub hm hlimited))
            · exact hone fun k hk _ =>
                (haccounted.group sub).le_max (hs.compositor_ne_all hv hm) hno k hk
  · exact hone fun k hk hk0 => absurd ⟨k, hk, hk0⟩ hlimited

/-- A choice whose members are counted once is so itself. -/
theorem once_of_choice (h : w.Busy s m n) (hs : s.Built)
    (haccounted : Accounted s w.root w.counts w.ceilings)
    (hchoice : (s.group w.here.group).compositor = .choice) (hpos : 0 < w.count m)
    (hg : s.CountsOnce w.root w.here.group) :
    w.leastInChoice s m = 1 ∧ w.greatest s m = 1 := by
  have hm := h.mem
  cases hg with
  | sequence hsequence => exact absurd (hchoice.symm.trans hsequence) nofun
  | choice _ hleaves hgroups hsub =>
      cases hleaf : m.isGroup with
      | false =>
          have hsure := hleaves m hm hleaf
          refine ⟨leastInChoice_eq_one hpos fun k hk hk0 => ?_,
            h.greatest_of_sure hs haccounted hm hleaf hsure⟩
          have hle := h.leaf_le hs haccounted hm hleaf (fun _ => hsure) k hk
          rwa [Nat.max_eq_right hk0] at hle
      | true =>
          obtain ⟨sub, rfl⟩ := Member.exists_group hleaf
          obtain ⟨hle, hle'⟩ := le_one_of_countsOnce haccounted (hsub sub hm) (hgroups sub hm)
          exact ⟨leastInChoice_eq_one hpos fun k _ hk0 => hle.trans hk0,
            greatest_eq_one (hle'.trans (Nat.le_max_left _ _))⟩

/-- The repetitions of a choice for which its alternative stands. -/
theorem inBounds_choice (h : w.Busy s m n) (hs : s.Built) (hv : s.version = .v10)
    (haccounted : Accounted s w.root w.counts w.ceilings)
    (hchoice : (s.group w.here.group).compositor = .choice) (hpos : 0 < w.count m) :
    s.InBounds w.root w.here.group (w.counts.count w.hereMember + w.leastInChoice s m)
      (w.ceilings.count w.hereMember + w.greatest s m) := by
  have hbefore := haccounted.group w.here.group
  have hle : s.Estimates w.root w.here.group →
      w.counts.count w.hereMember + w.leastInChoice s m ≤
        w.ceilings.count w.hereMember + w.greatest s m := fun hg =>
    Nat.add_le_add (hbefore.choice hchoice hg) (h.leastInChoice_le hs hv haccounted hchoice hpos hg)
  constructor
  · intro _ hno k hk
    have hlt := h.isOpen.count_lt k hk
    have hone := leastInChoice_eq_one hpos (haccounted.count_le hs hv h.mem h.ne_all
      (fun hnone => by rw [hnone] at hk; cases hk) hno)
    change w.counts.count (.group w.here.group) + _ ≤ _
    omega
  · exact fun hg => .inr (hle hg)
  · exact fun _ hg => hle hg
  · exact fun hsure => absurd (hchoice.symm.trans hsure.compositor) nofun
  · intro hg hone
    obtain ⟨hcount, hceiling⟩ := tallies_eq_zero h.isOpen hone
    obtain ⟨hleast, hgreatest⟩ := h.once_of_choice hs haccounted hchoice hpos hg
    rw [hleast, hgreatest]
    change w.counts.count (.group w.here.group) + 1 ≤ 1 ∧
      w.ceilings.count (.group w.here.group) + 1 ≤ 1
    omega

theorem accounted_choice (h : w.Busy s m n) (hs : s.Built) (hv : s.version = .v10)
    (haccounted : Accounted s w.root w.counts w.ceilings)
    (hchoice : (s.group w.here.group).compositor = .choice) :
    Accounted s w.root (w.closeInChoice s m).2.counts (w.closeInChoice s m).2.ceilings := by
  rcases Nat.eq_zero_or_pos (w.count m) with hzero | hpos
  · rw [closeInChoice_zero hzero]
    exact haccounted
  · rw [closeInChoice_of_pos hpos]
    have hne : Member.group w.here.group ≠ m := by
      rintro rfl
      exact hs.forest.ne_of_mem h.mem rfl
    refine haccounted.change (g := w.here.group) (fun x hx => ?_) ?_
    · simp only [restartGroup, hereMember, Tally.count_set, Tally.count_add, hx, if_false,
        and_true]
      split
      · exact Nat.zero_le _
      · exact le_rfl
    · simp only [restartGroup, hereMember, Tally.count_set, Tally.count_add, hne, if_false, if_true]
      exact h.inBounds_choice hs hv haccounted hchoice hpos

/-! ### Sequences -/

/-- A sequence that is sure of its repetitions does not estimate them. -/
theorem ceilingOrCount_of_sure (h : w.Busy s m n) (hs : s.Built)
    (haccounted : Accounted s w.root w.counts w.ceilings)
    (hg : s.IsSure w.root w.here.group) (hy : s.Heads w.root w.here.group y)
    (hpos : 0 < w.count y) : w.ceilingOrCount y = 1 := by
  have hle : w.ceilingOrCount y ≤ 1 := by
    cases hleaf : y.isGroup with
    | false =>
        obtain ⟨k, hk, hk1⟩ := Occurs.isOver_iff.1 (hg.single y hy)
        have hmax := h.leaf_le hs haccounted hy.mem hleaf
          (fun hchoice => absurd (hg.compositor.symm.trans hchoice) nofun) k hk
        rw [ceilingOrCount_leaf h.tidy hleaf]
        omega
    | true =>
        obtain ⟨sub, rfl⟩ := Member.exists_group hleaf
        exact (le_one_of_countsOnce haccounted (hg.group sub hy) (hg.single _ hy)).2
  have hge : 0 < w.ceilingOrCount y := by
    unfold ceilingOrCount
    split
    · exact hpos
    · omega
  omega

/-- A sequence whose members are counted once is so itself. -/
theorem once_of_sequence (h : w.Busy s m n) (hs : s.Built)
    (haccounted : Accounted s w.root w.counts w.ceilings)
    (hsequence : (s.group w.here.group).compositor = .sequence)
    (hg : s.CountsOnce w.root w.here.group) (hy : s.Heads w.root w.here.group y)
    (hpos : 0 < w.count y) : w.leastInSequence s y = 1 ∧ w.greatest s y = 1 := by
  cases hg with
  | choice hchoice => exact absurd (hsequence.symm.trans hchoice) nofun
  | sequence _ hleaves hgroups hsub =>
      cases hleaf : y.isGroup with
      | false =>
          have hle := h.leaf_le hs haccounted hy.mem hleaf
            fun hchoice => absurd (hsequence.symm.trans hchoice) nofun
          refine ⟨leastInSequence_eq_one hpos fun k hk hk0 => ?_, ?_⟩
          · have hmax := hle k hk
            rwa [Nat.max_eq_right hk0] at hmax
          · rcases hleaves y hy hleaf with hsure | hone
            · exact h.greatest_of_sure hs haccounted hy.mem hleaf hsure
            · obtain ⟨k, hk, hk1⟩ := Occurs.isOver_iff.1 hone
              have hmax := hle k hk
              refine greatest_eq_one ?_
              rw [ceilingOrCount_leaf h.tidy hleaf]
              omega
      | true =>
          obtain ⟨sub, rfl⟩ := Member.exists_group hleaf
          obtain ⟨hle, hle'⟩ := le_one_of_countsOnce haccounted (hsub sub hy) (hgroups sub hy)
          exact ⟨leastInSequence_eq_one hpos fun k _ hk0 => hle.trans hk0,
            greatest_eq_one (hle'.trans (Nat.le_max_left _ _))⟩

/-- A repetition of a sequence that is sure of it. -/
theorem inBounds_once (h : w.Busy s m n)
    (haccounted : Accounted s w.root w.counts w.ceilings)
    (hsequence : (s.group w.here.group).compositor = .sequence) :
    s.InBounds w.root w.here.group (w.counts.count (.group w.here.group) + 1)
      (w.ceilings.count (.group w.here.group)) := by
  have hbefore := haccounted.group w.here.group
  refine ⟨fun _ _ k hk => h.isOpen.count_lt k hk, fun hg => .inl ?_, fun hchoice => ?_,
    hbefore.sure, fun _ hone => ?_⟩
  · cases hg with
    | all hall => exact absurd hall h.ne_all
    | choice hchoice => exact absurd (hsequence.symm.trans hchoice) nofun
    | once _ hone => exact (tallies_eq_zero h.isOpen hone).2
    | sure hsure => exact hbefore.sure hsure
  · exact absurd (hsequence.symm.trans hchoice) nofun
  · obtain ⟨hcount, hceiling⟩ := tallies_eq_zero h.isOpen hone
    omega

/-- The repetitions of a sequence that are estimated from its first member that has occurred. -/
theorem inBounds_several (h : w.Busy s m n) (hs : s.Built) (hv : s.version = .v10)
    (haccounted : Accounted s w.root w.counts w.ceilings)
    (hsequence : (s.group w.here.group).compositor = .sequence)
    (hy : s.Heads w.root w.here.group y) (hpos : 0 < w.count y) (hne : w.ceilingOrCount y ≠ 1) :
    s.InBounds w.root w.here.group
      (w.counts.count (.group w.here.group) + w.leastInSequence s y)
      (w.ceilings.count (.group w.here.group) + w.greatest s y) := by
  constructor
  · intro _ hno k hk
    have hlt := h.isOpen.count_lt k hk
    have hone := leastInSequence_eq_one hpos (haccounted.count_le hs hv hy.mem h.ne_all
      (fun hnone => by rw [hnone] at hk; cases hk) hno)
    omega
  · intro hg
    cases hg with
    | all hall => exact absurd hall h.ne_all
    | choice hchoice => exact absurd (hsequence.symm.trans hchoice) nofun
    | sure hsure => exact absurd (h.ceilingOrCount_of_sure hs haccounted hsure hy hpos) hne
    | once _ hone hsub =>
        obtain ⟨hcount, hceiling⟩ := tallies_eq_zero h.isOpen hone
        rw [hcount, hceiling, Nat.zero_add, Nat.zero_add]
        refine .inr (leastInSequence_le_greatest hs hpos fun hlimited => ?_)
        cases hleaf : y.isGroup with
        | false => exact (ceilingOrCount_leaf h.tidy hleaf).ge
        | true =>
            obtain ⟨sub, rfl⟩ := Member.exists_group hleaf
            exact count_le_ceilingOrCount haccounted (hsub sub hy hlimited)
  · exact fun hchoice => absurd (hsequence.symm.trans hchoice) nofun
  · exact fun hsure => absurd (h.ceilingOrCount_of_sure hs haccounted hsure hy hpos) hne
  · intro hg hone
    obtain ⟨hcount, hceiling⟩ := tallies_eq_zero h.isOpen hone
    obtain ⟨hleast, hgreatest⟩ := h.once_of_sequence hs haccounted hsequence hg hy hpos
    rw [hleast, hgreatest]
    omega

theorem accounted_sequence (h : w.Busy s m n) (hs : s.Built) (hv : s.version = .v10)
    (haccounted : Accounted s w.root w.counts w.ceilings)
    (hsequence : (s.group w.here.group).compositor = .sequence)
    (hcounted : w.here.matched = true ∨ 0 < w.count m) :
    Accounted s w.root
      (closeInSequence s { w with here := { w.here with matched := true } } m).2.counts
      (closeInSequence s { w with here := { w.here with matched := true } } m).2.ceilings := by
  obtain ⟨i, j, done, -, hmembers, hrow, -, -⟩ := h.row hsequence hcounted
  rw [closeInSequence_of_split (w := { w with here := { w.here with matched := true } }) hs
    hmembers]
  split
  · rename_i hrest
    change w.here.rest = [] at hrest
    have hall : (s.group w.here.group).members = done ++ [m] := by rw [hmembers, hrest]
    rw [← hall] at hrow
    have hcounts := countsRow_countSequence s { w with here := { w.here with matched := true } }
    generalize Walk.countSequence s { w with here := { w.here with matched := true } } = w'
      at hcounts
    cases hcounts with
    | nothing => exact haccounted
    | once =>
        refine haccounted.change (g := w.here.group) (fun x hx => by simp [hereMember, hx]) ?_
        simpa [hereMember] using h.inBounds_once haccounted hsequence
    | several hy hbefore hpos hne hafter =>
        refine haccounted.change (g := w.here.group)
          (fun x hx => by simp [addRepetitions, hereMember, hx]) ?_
        simp only [addRepetitions, hereMember, Tally.count_add, if_true]
        exact h.inBounds_several hs hv haccounted hsequence (hrow.heads hy hbefore hafter) hpos hne
  · exact haccounted

end Busy

/-! ### Paces -/

/-- A leaf on which a walk waits admits one child more, if its maximum is kept. -/
def HasRoom (s : Schema) (w : Walk) (m : Member) : Prop :=
  s.KeepsMax m → ∀ n ∈ (s.occurs m).max, w.counts.count m < max 1 n.toNat

/-- A walk wherever it is, with its tallies accounted for. -/
structure Point.IsAccounted (s : Schema) (q : Point) : Prop where
  tallies : Accounted s q.walk.root q.walk.counts q.walk.ceilings
  room : q.phase = .waiting → ∀ m ∈ q.walk.current, q.walk.HasRoom s m

theorem accounted_take (h : Accounted s root w.counts w.ceilings) (hleaf : m.isGroup = false)
    (hroom : w.HasRoom s m) : Accounted s root (w.take m).counts (w.take m).ceilings := by
  constructor
  · intro x hx hkeeps n hn
    change (w.take m).count x ≤ _
    rw [count_take]
    split
    · rename_i hxm
      subst hxm
      exact hroom hkeeps n hn
    · exact h.leaf x hx hkeeps n hn
  · intro g
    change s.InBounds root g ((w.take m).count (.group g)) _
    rw [count_take, if_neg (by rintro rfl; cases hleaf)]
    exact h.group g

/-- A walk stays on a leaf that admits more children. -/
theorem Busy.hasRoom_take (h : w.Busy s m n) (hstays : (w.take m).staysOn s m = true) :
    (w.take m).HasRoom s m := by
  intro hkeeps k hk
  obtain ⟨-, hsure⟩ := hkeeps _ h.mem
  simp only [staysOn, Bool.and_eq_true, Bool.or_eq_true, Bool.not_eq_true', decide_eq_true_eq]
    at hstays
  rcases hstays.2 with hmore | ⟨hchoice, hambiguous⟩
  · exact (Occurs.isOver_eq_false_iff.1 hmore k hk).trans_le (Nat.le_max_right _ _)
  · rw [hsure hchoice] at hambiguous
    cases hambiguous

theorem isAccounted_ascend (h : Accounted s w.root w.counts w.ceilings) :
    (w.ascend n).IsAccounted s := by
  obtain ⟨hroot, hcounts, hceilings⟩ := walk_ascend w n
  refine ⟨by rwa [hroot, hcounts, hceilings], fun hwaiting => ?_⟩
  unfold ascend at hwaiting
  split at hwaiting <;> cases hwaiting

theorem accounted_nextItem {w' : Walk} {item : Option Member}
    (h : Accounted s w.root w.counts w.ceilings) (hnext : w.nextItem s = (item, w')) :
    Accounted s w'.root w'.counts w'.ceilings := by
  obtain ⟨rest, -, rfl⟩ := nextItem_suffix hnext
  exact h

/-- A leaf on which a walk comes to stand has not occurred, and has room. -/
theorem Searching.isAccounted_stand {w' : Walk} (h : w.Searching s n) (hs : s.Built)
    (htallies : Accounted s w.root w.counts w.ceilings) (hover : w.isGroupOver s = false)
    (hnext : w.nextItem s = (some m, w')) (hleaf : m.isGroup = false) :
    Point.IsAccounted s ⟨.waiting, w'.standOn s m, n⟩ := by
  obtain ⟨hzero, hsame⟩ := h.count_standOn hs hover hnext hleaf
  obtain ⟨rest, -, rfl⟩ := nextItem_suffix hnext
  refine ⟨⟨fun x hx hkeeps k hk => ?_, fun g => ?_⟩, fun _ x hx _ k _ => ?_⟩
  · refine le_trans ?_ (htallies.leaf x hx hkeeps k hk)
    by_cases hxm : x = m
    · subst hxm
      exact hzero.le.trans (Nat.zero_le _)
    · exact (hsame x hxm).le
  · have hgm : Member.group g ≠ m := by
      rintro rfl
      cases hleaf
    change s.InBounds _ g (Tally.count _ (.group g)) _
    rw [hsame _ hgm]
    exact htallies.group g
  · obtain rfl := Option.some.inj hx
    rw [hzero]
    omega

theorem accounted_enter {w' : Walk} (h : Accounted s w.root w.counts w.ceilings)
    (henter : w.enter s g = .ok w') :
    Accounted s (w'.forget g).root (w'.forget g).counts (w'.forget g).ceilings := by
  unfold Walk.enter at henter
  split at henter <;> cases henter
  refine h.change (g := g) (fun x hx => ?_) ?_
  · simp [forget, hx]
  · simp only [forget, Tally.count_set, if_true]
    exact .zero

/-- Every pace keeps the tallies accounted for. -/
theorem Pace.isAccounted (hs : s.Built) (hv : s.version = .v10) {p q : Point} (hpace : Pace s p q)
    (hbalanced : Balanced s p) (hp : p.IsAccounted s) :
    q.IsAccounted s ∨ q.walk.Loose s q.children := by
  have htallies := hp.tallies
  cases hbalanced with
  | loose hloose => exact .inr (hloose.pace hpace)
  | waiting hm hleaf h =>
      have hroom := hp.room rfl _ hm
      cases hpace with
      | stay hm' hstays =>
          obtain rfl := Option.some.inj (hm.symm.trans hm')
          refine .inl ⟨accounted_take htallies hleaf hroom, fun _ x hx => ?_⟩
          obtain rfl := Option.some.inj (hm.symm.trans hx)
          exact h.hasRoom_take hstays
      | fill hm' _ _ =>
          obtain rfl := Option.some.inj (hm.symm.trans hm')
          exact .inl ⟨accounted_take htallies hleaf hroom, nofun⟩
      | tick _ hall => exact absurd hall h.ne_all
      | pass _ => exact .inl ⟨htallies, nofun⟩
  | closing h =>
      have hroot := hpace.root
      cases hpace with
      | closeAll hall => exact absurd hall h.ne_all
      | closeChoice hchoice =>
          refine .inl ⟨?_, nofun⟩
          rw [hroot]
          exact h.accounted_choice hs hv htallies hchoice
      | closeSequence hsequence hcounted =>
          refine .inl ⟨?_, nofun⟩
          rw [hroot]
          exact h.accounted_sequence hs hv htallies hsequence hcounted
      | skip | miss => exact .inl ⟨htallies, nofun⟩
      | giveUp => exact .inl (isAccounted_ascend htallies)
  | looking h =>
      cases hpace with
      | full _ => exact .inl (isAccounted_ascend htallies)
      | stand hover hnext hleaf =>
          exact .inl (h.isAccounted_stand hs htallies hover hnext hleaf)
      | enter _ hnext henter =>
          exact .inl ⟨accounted_enter (accounted_nextItem htallies hnext) henter, nofun⟩
      | tooDeep hnext _ => exact .inl ⟨accounted_nextItem htallies hnext, nofun⟩
      | unmatched _ hnext _ _ => exact .inl (isAccounted_ascend (accounted_nextItem htallies hnext))
      | unmatchedAll _ _ hall => exact absurd hall h.ne_all
      | again _ hnext _ => exact .inl ⟨(accounted_nextItem htallies hnext :), nofun⟩
      | short _ _ hall _ => exact absurd hall h.ne_all
      | fulfilled _ _ hall _ => exact absurd hall h.ne_all
      | fulfilledLast _ _ hall _ => exact absurd hall h.ne_all
  | ended h =>
      cases hpace with
      | halt | ignore => exact .inl ⟨htallies, nofun⟩

/-! ### Starting -/

/-- Nothing is counted on the way to the first leaf. -/
theorem tallies_seekFirst {w' : Walk} {fuel : Nat} (hseek : w.seekFirst s fuel = (.ok (), w')) :
    w'.counts = w.counts ∧ w'.ceilings = w.ceilings := by
  refine seekFirst_induction (P := fun v => v.counts = w.counts ∧ v.ceilings = w.ceilings)
    (Q := fun v => v.counts = w.counts ∧ v.ceilings = w.ceilings) (fun h hitem _ => ?_)
    (fun h hitem hleave => ?_) (fun h hitem _ => ?_) (fun h hitem henter => ?_)
    (fun h hitem _ => ?_) ⟨rfl, rfl⟩ hseek
  all_goals obtain ⟨hcounts, hceilings⟩ := tallies_nextItem hitem
  · exact ⟨hcounts.trans h.1, hceilings.trans h.2⟩
  · unfold leave? at hleave
    split at hleave <;> cases hleave
    exact ⟨hcounts.trans h.1, hceilings.trans h.2⟩
  · exact ⟨hcounts.trans h.1, hceilings.trans h.2⟩
  · unfold Walk.enter at henter
    split at henter <;> cases henter
    exact ⟨hcounts.trans h.1, hceilings.trans h.2⟩
  · exact ⟨hcounts.trans h.1, hceilings.trans h.2⟩

theorem isAccounted_zero (hcounts : w.counts = Tally.zero) (hceilings : w.ceilings = Tally.zero) :
    (w.point n).IsAccounted s := by
  refine ⟨?_, fun _ m _ _ k _ => ?_⟩
  · change Accounted s w.root w.counts w.ceilings
    rw [hcounts, hceilings]
    exact .zero
  · change w.counts.count m < _
    rw [hcounts, Tally.count_zero]
    omega

/-- The tallies of a walk are accounted for between two operations, as long as no operation was
stopped at the bound on the depth of models. Those of an `all` group need not be. -/
theorem Course.isAccounted (hs : s.Built) (hv : s.version = .v10) (h : Course s w n) :
    Balanced s (w.point n) ∧ ((w.point n).IsAccounted s ∨ w.Loose s n) := by
  refine h.keep (P := fun q => Balanced s q ∧ (q.IsAccounted s ∨ q.walk.Loose s q.children))
    hs hv (fun hpace hp => ⟨hpace.balanced hs hv hp.1, ?_⟩)
    (fun w => ⟨balanced_clear w, .inl (isAccounted_zero rfl rfl)⟩) fun w w' hseek => ?_
  · rcases hp.2 with haccounted | hloose
    · exact hpace.isAccounted hs hv hp.1 haccounted
    · exact .inr (hloose.pace hpace)
  · obtain ⟨hcounts, hceilings⟩ := tallies_seekFirst hseek
    exact ⟨balanced_restart hs hv hseek, .inl (isAccounted_zero hcounts hceilings)⟩

/-- The ceiling of a group is an upper estimate, where its bounds and those in it leave no doubt
whether a repetition is estimated: wherever a walk is, the ceiling is zero or no less than the
count. -/
theorem count_le_ceiling (hs : s.Built) (hv : s.version = .v10) (h : Course s w n) {q : Point}
    (hpaces : Paces s (w.point n) q) (hg : s.Estimates w.root g) :
    q.walk.ceilings.count (.group g) = 0 ∨
      q.walk.counts.count (.group g) ≤ q.walk.ceilings.count (.group g) := by
  obtain ⟨-, haccounted⟩ := hpaces.keep
    (P := fun q => Balanced s q ∧ (q.IsAccounted s ∨ q.walk.Loose s q.children))
    (fun hpace hp => ⟨hpace.balanced hs hv hp.1, hp.2.elim
      (hpace.isAccounted hs hv hp.1) fun hloose => .inr (hloose.pace hpace)⟩)
    (h.isAccounted hs hv)
  rcases haccounted with haccounted | hloose
  · have hroot : q.walk.root = w.root := hpaces.root
    exact (haccounted.tallies.group g).le_ceiling (hroot ▸ hg)
  · exact .inl (hloose.ceiling_eq_zero _)

end Walk

/-- Any number of times one or two `a`, or a `b`. -/
def pairsSample : Components :=
  (Components.withElements .v10 [("a", ⟨1, some 2⟩), ("b", .once)]).withGroup .choice .zeroOrMore
    [.element ⟨0⟩, .element ⟨1⟩]

theorem count_le_ceiling_sample : pairsSample.schema.Built ∧
    pairsSample.schema.version = .v10 ∧ ∃ w, Walk.Course pairsSample.schema w 4 ∧
      pairsSample.schema.Estimates w.root ⟨0⟩ ∧ w.counts.count (.group ⟨0⟩) = 2 ∧
      w.ceilings.count (.group ⟨0⟩) = 4 ∧
      (w.ceilings.count (.group ⟨0⟩) = 0 ∨
        w.counts.count (.group ⟨0⟩) ≤ w.ceilings.count (.group ⟨0⟩)) := by
  have hs : pairsSample.schema.Built :=
    ((Components.assembled_withElements ..).withGroup ..).built rfl
  have hstart : Walk.start pairsSample.schema ⟨0⟩ .v10 = .ok ⟨⟨0⟩, .v10,
      ⟨⟨0⟩, [.element ⟨1⟩], false⟩, [], Tally.zero, Tally.zero, some (.element ⟨0⟩)⟩ := by
    decide +kernel
  have hnever : ∀ {r : Except Failure (List Violation)}, r.isOk = true →
      ∀ f, r = .error f → ¬f.ExceedsDepth pairsSample.schema := by
    rintro _ hok f rfl
    cases hok
  have hcourse := (((((Walk.Course.start hstart).advance true (hnever (by decide +kernel))).advance
    true (hnever (by decide +kernel))).advance true (hnever (by decide +kernel))).advance true
      (hnever (by decide +kernel))).advance false (hnever (by decide +kernel))
  have hmembers : (pairsSample.schema.group ⟨0⟩).members = [.element ⟨0⟩, .element ⟨1⟩] := by
    decide +kernel
  have hestimates : ∀ root, pairsSample.schema.Estimates root ⟨0⟩ := by
    refine fun root => .choice (by decide +kernel) (fun m hm _ _ => .inl ?_)
      (fun sub hsub => ?_) fun sub hsub => ?_
    · rw [hmembers, List.mem_cons, List.mem_singleton] at hm
      rcases hm with rfl | rfl <;> decide +kernel
    · rw [hmembers] at hsub
      simp at hsub
    · rw [hmembers] at hsub
      simp at hsub
  exact ⟨hs, rfl, _, hcourse, hestimates _, by decide +kernel, by decide +kernel,
    Walk.count_le_ceiling hs rfl hcourse .refl (hestimates _)⟩

/-- Four times or more one or two `a`, and a `b` that need not be there. -/
def aheadSample : Components :=
  (Components.withElements .v10 [("a", ⟨1, some 2⟩), ("b", .optional)]).withGroup .sequence
    ⟨4, none⟩ [.element ⟨0⟩, .element ⟨1⟩]

/-- The count gets ahead of the ceiling, and both are less than the repetitions for which the
children may stand: the `a` that come with a `b` are counted, but not estimated. -/
theorem ceiling_lt_count : aheadSample.schema.Built ∧ aheadSample.schema.version = .v10 ∧
    ∃ w, Walk.Reachable aheadSample.schema w ∧ Walk.Course aheadSample.schema w 7 ∧
      w.ceilings.count (.group ⟨0⟩) = 2 ∧ w.counts.count (.group ⟨0⟩) = 3 ∧
      aheadSample.schema.Times aheadSample.schema.occurs (.group ⟨0⟩) 4
        (["a", "a", "b", "a", "b", "a", "b"].map QName.plain) := by
  have hs : aheadSample.schema.Built :=
    ((Components.assembled_withElements ..).withGroup ..).built rfl
  have hstart : Walk.start aheadSample.schema ⟨0⟩ .v10 = .ok ⟨⟨0⟩, .v10,
      ⟨⟨0⟩, [.element ⟨1⟩], false⟩, [], Tally.zero, Tally.zero, some (.element ⟨0⟩)⟩ := by
    decide +kernel
  have hnever : ∀ {r : Except Failure (List Violation)}, r.isOk = true →
      ∀ f, r = .error f → ¬f.ExceedsDepth aheadSample.schema := by
    rintro _ hok f rfl
    cases hok
  -- two of `a` and one `b`, then `a` and `b` twice
  have hrow := (((Walk.Course.start hstart).advance true (hnever (by decide +kernel))).advance
    true (hnever (by decide +kernel))).advance true (hnever (by decide +kernel))
  have hpair := ((hrow.advance true (hnever (by decide +kernel))).advance false
    (hnever (by decide +kernel))).advance true (hnever (by decide +kernel))
  have hcourse := ((hpair.advance true (hnever (by decide +kernel))).advance false
    (hnever (by decide +kernel))).advance true (hnever (by decide +kernel))
  refine ⟨hs, rfl, _, hcourse.reachable, hcourse, by decide +kernel, by decide +kernel, ?_⟩
  have hmembers : (aheadSample.schema.group ⟨0⟩).members = [.element ⟨0⟩, .element ⟨1⟩] := by
    decide +kernel
  have hleaf : ∀ m name, aheadSample.schema.passes m name = true →
      (aheadSample.schema.occurs m).Admits 1 →
        aheadSample.schema.Words aheadSample.schema.occurs m [name] :=
    fun m name hpasses hadmits => .intro hadmits (Components.Once.leaf hpasses).times
  have ha := hleaf (.element ⟨0⟩) (.plain "a") (by decide +kernel) (by decide +kernel)
  have hb := hleaf (.element ⟨1⟩) (.plain "b") (by decide +kernel) (by decide +kernel)
  have hnone : aheadSample.schema.Words aheadSample.schema.occurs (.element ⟨1⟩) [] :=
    .intro (n := 0) (by decide +kernel) .zero
  have honce : ∀ {v}, aheadSample.schema.Words aheadSample.schema.occurs (.element ⟨1⟩) v →
      aheadSample.schema.Once aheadSample.schema.occurs (.group ⟨0⟩) ([.plain "a"] ++ (v ++ [])) :=
    fun hv => .sequence (by decide +kernel) (hmembers ▸ .cons ha (.cons hv .nil))
  exact .succ (honce hnone) (.succ (honce hb) (.succ (honce hb) (honce hb).times))

end Conform
