import Conform.Proofs.Model.Loosened
/-!
# Particles that can be empty

The facts about a group say whether it can be empty. It is so just if the empty word is one of its
words, whatever the maxima are. A choice without members has no words, but is taken to be empty.
-/

namespace Conform.Schema

open Components

variable {s : Schema} {root g : GroupId} {m : Member} {b : Member → Occurs}

/-- Whether one occurrence of a group can be empty. -/
def isHollow (s : Schema) (g : GroupId) : Bool :=
  match (s.group g).compositor with
  | .choice => (s.group g).members.any s.isEmptiable
  | .sequence | .all => (s.group g).members.all s.isEmptiable

/-- A group without members. -/
def IsVoid (s : Schema) (m : Member) : Prop :=
  ∃ g, m = .group g ∧ (s.group g).members = []

/-- A choice that must occur has a member. -/
def HasAlternatives (s : Schema) (b : Member → Occurs) (root : GroupId) : Prop :=
  ∀ g, s.Contains root (.group g) → (s.group g).compositor = .choice →
    (b (.group g)).min ≠ 0 → (s.group g).members ≠ []

/-- Bounds in order that differ from those of a schema in the maxima alone, or are lower where there
are no members. -/
structure Widened (s : Schema) (b : Member → Occurs) : Prop where
  le_min : ∀ m, (b m).min.toNat ≤ (s.occurs m).min.toNat
  min_eq : ∀ m, ¬s.IsVoid m → (b m).min = (s.occurs m).min
  min_le : ∀ m, ∀ n ∈ (b m).max, (b m).min.toNat ≤ n.toNat

theorem not_isVoid_leaf (hm : m.isGroup = false) : ¬s.IsVoid m := by
  rintro ⟨g, rfl, -⟩
  cases hm

theorem not_isVoid_of_mem (hm : m ∈ (s.group g).members) : ¬s.IsVoid (.group g) := by
  rintro ⟨g', heq, hnil⟩
  obtain rfl := Member.group.inj heq
  rw [hnil] at hm
  cases hm

/-! ## The facts -/

namespace Built

theorem isEmptiable_eq (h : s.Built) (g : GroupId) : s.isEmptiable (.group g) =
    ((s.group g).occurs.isEmptiable || (s.group g).members.isEmpty || s.isHollow g) := by
  rw [h.isEmptiable_group]
  rfl

theorem isEmptiable_of_min (h : s.Built) (hmin : (s.occurs m).min.toNat = 0) :
    s.isEmptiable m = true := by
  cases m with
  | group g =>
      have hzero : (s.group g).occurs.min = 0 := UInt32.toNat_inj.1 hmin
      rw [h.isEmptiable_eq]
      simp [Occurs.isEmptiable, hzero]
  | element e => exact (isEmptiable_leaf rfl).2 hmin
  | wildcard w => exact (isEmptiable_leaf rfl).2 hmin

theorem isEmptiable_of_isHollow (h : s.Built) (hhollow : s.isHollow g = true) :
    s.isEmptiable (.group g) = true := by
  rw [h.isEmptiable_eq, hhollow, Bool.or_true]

/-- A group of members that all can be empty can be so. -/
theorem isEmptiable_of_forall (h : s.Built) (hall : ∀ x ∈ (s.group g).members,
    s.isEmptiable x = true) : s.isEmptiable (.group g) = true := by
  by_cases hnil : (s.group g).members = []
  · rw [h.isEmptiable_eq]
    simp [hnil]
  obtain ⟨x, hx⟩ := List.exists_mem_of_ne_nil _ hnil
  refine h.isEmptiable_of_isHollow ?_
  unfold isHollow
  cases (s.group g).compositor with
  | choice => exact List.any_eq_true.2 ⟨x, hx, hall x hx⟩
  | sequence => exact List.all_eq_true.2 hall
  | all => exact List.all_eq_true.2 hall

theorem isEmptiable_of_isVoid (h : s.Built) (hvoid : s.IsVoid m) : s.isEmptiable m = true := by
  obtain ⟨g, rfl, hnil⟩ := hvoid
  exact h.isEmptiable_of_forall fun x hx => by
    rw [hnil] at hx
    cases hx

/-- A group without leaves can be empty. -/
theorem isEmptiable_of_leaves (h : s.Built)
    (hmax : ∀ m, s.Contains root m → (s.occurs m).max ≠ some 0) :
    ∀ (k : Nat) (g : GroupId), g.index < k → s.Contains root (.group g) → s.leaves g = [] →
      s.isEmptiable (.group g) = true := by
  intro k
  induction k with
  | zero =>
      intro g hk
      omega
  | succ k ih =>
      intro g hk hin hleaves
      refine h.isEmptiable_of_forall fun x hx => ?_
      rw [h.leaves_eq, List.flatMap_eq_nil_iff] at hleaves
      have hxleaves := hleaves x hx
      cases x with
      | group sub =>
          have hlt := h.forest.index_lt hx
          have hoccurs : (s.group sub).occurs.isEmpty = false :=
            decide_eq_false (hmax _ (hin.member hx))
          simp only [hoccurs] at hxleaves
          exact ih sub (by omega) (hin.member hx) hxleaves
      | element e => simp at hxleaves
      | wildcard w => simp at hxleaves

end Built

/-! ## Empty words -/

namespace Widened

/-- A member that occurs as often as it must without a child can be empty. -/
theorem words_of_once_nil (hb : s.Widened b) (honce : s.Once b m []) : s.Words b m [] :=
  .intro ⟨Nat.le_refl _, hb.min_le m⟩ (Times.pad honce .zero (Nat.zero_le _))

theorem words_of_min (hb : s.Widened b) (hmin : (s.occurs m).min.toNat = 0) : s.Words b m [] :=
  .intro (n := 0) ⟨hmin ▸ hb.le_min m, fun _ _ => Nat.zero_le _⟩ .zero

/-- Members that can be empty make up an empty occurrence of their group. -/
theorem once_nil (hmember : ∀ x ∈ (s.group g).members, s.isEmptiable x = true → s.Words b x [])
    (hhollow : s.isHollow g = true) : s.Once b (.group g) [] := by
  unfold isHollow at hhollow
  cases hc : (s.group g).compositor with
  | choice =>
      rw [hc] at hhollow
      obtain ⟨x, hx, hempty⟩ := List.any_eq_true.1 hhollow
      exact .choice hc hx (hmember x hx hempty)
  | sequence =>
      rw [hc] at hhollow
      exact .sequence hc (.empty fun x hx => hmember x hx (List.all_eq_true.1 hhollow x hx))
  | all =>
      rw [hc] at hhollow
      exact .all hc (List.Perm.refl _)
        (.empty fun x hx => hmember x hx (List.all_eq_true.1 hhollow x hx))

/-- The empty word of a row is made up of empty words. -/
theorem forall_row_nil {ms : List Member} : s.Row b ms [] → ∀ x ∈ ms, s.Words b x [] := by
  induction ms with
  | nil => simp
  | cons y ms ih =>
      intro hrow
      obtain ⟨u, v, heq, hu, hv⟩ := row_cons_iff.1 hrow
      obtain ⟨rfl, rfl⟩ := List.append_eq_nil_iff.1 heq.symm
      intro x hx
      rcases List.mem_cons.1 hx with rfl | hx
      · exact hu
      · exact ih hv x hx

/-- An empty occurrence of a group is made up of empty members. -/
theorem isHollow_of_once (hmember : ∀ x ∈ (s.group g).members, s.Words b x [] →
    s.isEmptiable x = true) (honce : s.Once b (.group g) []) : s.isHollow g = true := by
  unfold isHollow
  generalize hw : ([] : List QName) = w at honce
  cases honce with
  | leaf => cases hw
  | choice hc hx hword =>
      rw [hc]
      exact List.any_eq_true.2 ⟨_, hx, hmember _ hx (hw ▸ hword)⟩
  | sequence hc hrow =>
      rw [hc]
      exact List.all_eq_true.2 fun x hx => hmember x hx (forall_row_nil (hw ▸ hrow) x hx)
  | all hc hperm hrow =>
      rw [hc]
      exact List.all_eq_true.2 fun x hx =>
        hmember x hx (forall_row_nil (hw ▸ hrow) x (hperm.symm.subset hx))

theorem words_nil_group (hb : s.Widened b) (hs : s.Built)
    (halternatives : s.HasAlternatives b root) :
    ∀ (k : Nat) (g : GroupId), g.index < k → s.Contains root (.group g) →
      s.isEmptiable (.group g) = true → s.Words b (.group g) [] := by
  intro k
  induction k with
  | zero =>
      intro g hk
      omega
  | succ k ih =>
      intro g hk hin hempty
      by_cases hmin : (b (.group g)).min = 0
      · refine .intro (n := 0) ⟨?_, fun _ _ => Nat.zero_le _⟩ .zero
        rw [hmin]
        exact Nat.le_refl 0
      have hmember : ∀ x ∈ (s.group g).members, s.isEmptiable x = true → s.Words b x [] := by
        intro x hx hxempty
        cases x with
        | group sub =>
            have hlt := hs.forest.index_lt hx
            exact ih sub (by omega) (hin.member hx) hxempty
        | element e => exact hb.words_of_min ((isEmptiable_leaf rfl).1 hxempty)
        | wildcard w => exact hb.words_of_min ((isEmptiable_leaf rfl).1 hxempty)
      refine hb.words_of_once_nil (once_nil hmember ?_)
      by_cases hnil : (s.group g).members = []
      · have hchoice : (s.group g).compositor ≠ .choice :=
          fun hc => halternatives g hin hc hmin hnil
        unfold isHollow
        cases hc : (s.group g).compositor with
        | choice => exact absurd hc hchoice
        | sequence => simp [hnil]
        | all => simp [hnil]
      · obtain ⟨x, hx⟩ := List.exists_mem_of_ne_nil _ hnil
        have hpos : (s.group g).occurs.min ≠ 0 := hb.min_eq _ (not_isVoid_of_mem hx) ▸ hmin
        rw [hs.isEmptiable_eq] at hempty
        simpa [Occurs.isEmptiable, hpos, hnil] using hempty

/-- A particle that can be empty, as its facts say, has the empty word. -/
theorem words_nil (hb : s.Widened b) (hs : s.Built) (halternatives : s.HasAlternatives b root)
    (hm : s.Contains root m) (hempty : s.isEmptiable m = true) : s.Words b m [] := by
  cases m with
  | group g =>
      exact hb.words_nil_group hs halternatives (g.index + 1) g (Nat.lt_succ_self _) hm hempty
  | element e => exact hb.words_of_min ((isEmptiable_leaf rfl).1 hempty)
  | wildcard w => exact hb.words_of_min ((isEmptiable_leaf rfl).1 hempty)

/-- The empty word is that of no occurrence, or of some empty ones. -/
theorem min_or_once_nil (hb : s.Widened b) (hvoid : ¬s.IsVoid m) (hword : s.Words b m []) :
    (s.occurs m).min.toNat = 0 ∨ s.Once b m [] := by
  cases hword with
  | @intro _ n _ hadmits htimes =>
      rcases Nat.eq_zero_or_pos n with rfl | hpos
      · have hmin := hadmits.1
        rw [hb.min_eq m hvoid] at hmin
        exact .inl (Nat.le_zero.1 hmin)
      · obtain ⟨n, rfl⟩ := Nat.exists_eq_add_of_le' hpos
        exact .inr htimes.once_nil

theorem isEmptiable_of_words_leaf (hb : s.Widened b) (hs : s.Built) (hm : m.isGroup = false)
    (hword : s.Words b m []) : s.isEmptiable m = true := by
  rcases hb.min_or_once_nil (not_isVoid_leaf hm) hword with hmin | honce
  · exact hs.isEmptiable_of_min hmin
  · cases m with
    | group g => cases hm
    | element e => cases honce
    | wildcard w => cases honce

theorem isEmptiable_of_words_group (hb : s.Widened b) (hs : s.Built) :
    ∀ (k : Nat) (g : GroupId), g.index < k → s.Words b (.group g) [] →
      s.isEmptiable (.group g) = true := by
  intro k
  induction k with
  | zero =>
      intro g hk
      omega
  | succ k ih =>
      intro g hk hword
      by_cases hvoid : s.IsVoid (.group g)
      · exact hs.isEmptiable_of_isVoid hvoid
      rcases hb.min_or_once_nil hvoid hword with hmin | honce
      · exact hs.isEmptiable_of_min hmin
      refine hs.isEmptiable_of_isHollow (isHollow_of_once (fun x hx hxword => ?_) honce)
      cases x with
      | group sub =>
          have hlt := hs.forest.index_lt hx
          exact ih sub (by omega) hxword
      | element e => exact hb.isEmptiable_of_words_leaf hs rfl hxword
      | wildcard w => exact hb.isEmptiable_of_words_leaf hs rfl hxword

/-- A particle can be empty, as its facts say, just if it has the empty word. -/
theorem words_nil_iff (hb : s.Widened b) (hs : s.Built) (halternatives : s.HasAlternatives b root)
    (hm : s.Contains root m) : s.Words b m [] ↔ s.isEmptiable m = true := by
  constructor
  · intro hword
    cases m with
    | group g => exact hb.isEmptiable_of_words_group hs (g.index + 1) g (Nat.lt_succ_self _) hword
    | element e => exact hb.isEmptiable_of_words_leaf hs rfl hword
    | wildcard w => exact hb.isEmptiable_of_words_leaf hs rfl hword
  · exact hb.words_nil hs halternatives hm

/-- An occurrence of a group can be empty just if the facts about its members say so. -/
theorem once_nil_iff (hb : s.Widened b) (hs : s.Built) (halternatives : s.HasAlternatives b root)
    (hg : s.Contains root (.group g)) : s.Once b (.group g) [] ↔ s.isHollow g = true :=
  ⟨isHollow_of_once fun _ hx => (hb.words_nil_iff hs halternatives (hg.member hx)).1,
    once_nil fun _ hx => (hb.words_nil_iff hs halternatives (hg.member hx)).2⟩

end Widened

/-! ## Loosened bounds -/

namespace Built

theorem widened_loosened (h : s.Built) (root : GroupId) : s.Widened (s.loosened root) :=
  ⟨fun m => by rw [min_loosened], fun m _ => min_loosened _ root m, h.min_le_loosened root⟩

theorem words_nil (h : s.Built) (hg : s.IsGapless root) (hm : s.Contains root m)
    (hempty : s.isEmptiable m = true) : s.Words (s.loosened root) m [] := by
  have halternatives : s.HasAlternatives (s.loosened root) root := by
    intro g hin hchoice hmin
    rw [min_loosened] at hmin
    exact hg.members_ne_nil g hin hchoice hmin
  exact (h.widened_loosened root).words_nil h halternatives hm hempty

end Built

end Conform.Schema
