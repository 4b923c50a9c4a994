import Conform.Proofs.Model.Emptiness
/-!
# Steady content models

A walk never goes back. It stays in a particle as long as the children match it, and estimates the
repetitions of a group from the occurrences of the first member that was there. So it may take
occurrences for one repetition that belong to several. In a steady model no such occurrences are
missed elsewhere: either the bounds leave no choice, or any number of repetitions is admitted.
-/

namespace Conform.Schema

open Components

/-- A member that can make up an occurrence of its group alone: an alternative of a choice, or a
member beside which all others can be empty. -/
structure IsLonely (s : Schema) (g : GroupId) (m : Member) : Prop where
  mem : m ∈ (s.group g).members
  others : (s.group g).compositor ≠ .choice →
    ∀ x ∈ (s.group g).members, x ≠ m → s.isEmptiable x = true

/-- Particles of which one number of occurrences is admitted where some are there, down to the
elements that can make up an occurrence alone. -/
inductive Firm (s : Schema) : Member → Prop
  | leaf {m : Member} : m.isGroup = false →
      (s.occurs m).max = some 1 ∨ (s.occurs m).max = some (s.occurs m).min → Firm s m
  | never {g : GroupId} : (s.group g).occurs.max = some 0 → Firm s (.group g)
  | group {g : GroupId} :
      ((s.group g).occurs.max = some 1 ∨
        (s.group g).occurs.max = some (s.group g).occurs.min ∧ s.isHollow g = false) →
      (∀ m, s.IsLonely g m → Firm s m) →
      ((s.group g).compositor = .choice → ∀ m ∈ (s.group g).members, m.isGroup = false →
        (s.occurs m).max = some (s.occurs m).min) → Firm s (.group g)

/-- A member whose occurrences can be spread over any number of repetitions of its group, each of
them alone. The alternatives of a choice are spread by the walk itself. -/
structure Spreads (s : Schema) (g : GroupId) (m : Member) : Prop where
  lonely : s.IsLonely g m
  max_ne_zero : (s.occurs m).max ≠ some 0
  min_le_one : (s.occurs m).min.toNat ≤ 1
  isGroup_or : m.isGroup = true ∨ (s.group g).compositor = .sequence

/-- Members whose maximum does not bind, since what is beyond it belongs to further repetitions of a
group that may be repeated at will. -/
inductive Free (s : Schema) (root : GroupId) : Member → Prop
  | unbounded {g : GroupId} {m : Member} : s.Contains root (.group g) →
      (s.group g).occurs.max = none → (s.group g).occurs.min.toNat ≤ 1 → s.Spreads g m →
      Free s root m
  | spread {g : GroupId} {m : Member} : Free s root (.group g) → s.Spreads g m → Free s root m

/-- Groups that may be repeated at will. -/
def Wide (s : Schema) (root g : GroupId) : Prop :=
  (s.group g).occurs.max = none ∧ (s.group g).occurs.min.toNat ≤ 1 ∨ s.Free root (.group g)

/-- Groups that may be repeated. -/
def Repeats (s : Schema) (root g : GroupId) : Prop :=
  (s.group g).occurs.max ≠ some 0 ∧ (s.group g).occurs.max ≠ some 1 ∨ s.Free root (.group g)

/-- Models in which a walk that stays where it is misses nothing. -/
structure IsSteady (s : Schema) (root : GroupId) : Prop where
  /-- What can make up a repetition alone is firm, or may be taken for any number of them. -/
  lonely : ∀ g m, s.Contains root (.group g) → s.Repeats root g → s.IsLonely g m →
    s.Firm m ∨ s.Wide root g ∧ ((s.occurs m).min.toNat ≤ 1 ∨ (s.occurs m).max = none ∨
      m.isGroup = false ∧ (s.group g).compositor = .choice)
  /-- A group of which an occurrence can be empty is not expected. -/
  hollow : ∀ g, s.Contains root (.group g) → s.isHollow g = true →
    (s.group g).occurs.min.toNat = 0 ∨
      (s.group g).compositor = .sequence ∧
        (∀ m ∈ (s.group g).members, (s.occurs m).min.toNat = 0) ∨
      (s.group g).occurs.min.toNat = 1 ∧ ∀ outer, s.Contains root (.group outer) →
        .group g ∈ (s.group outer).members → (s.group outer).compositor = .choice
  /-- The repetitions of an alternative that must occur several times are all counted. -/
  counted : ∀ g sub, s.Contains root (.group g) → (s.group g).compositor = .choice →
    .group sub ∈ (s.group g).members → (s.group sub).compositor = .sequence →
    2 ≤ (s.group sub).occurs.min.toNat →
      (∀ m ∈ (s.group sub).members, ∃ n ∈ (s.occurs m).max, n.toNat ≤ 1) ∨
      ∃ m ∈ (s.group sub).members, ∃ m' ∈ (s.group sub).members, m ≠ m' ∧
        s.isEmptiable m = false ∧ s.isEmptiable m' = false

/-- Whether the groups in a group are nested no deeper than a bound. -/
def isWithin (s : Schema) : Nat → GroupId → Bool
  | 0, g => (s.nested g).isEmpty
  | depth + 1, g => (s.nested g).all fun sub => s.isWithin depth sub

variable {s : Schema} {root g : GroupId} {m : Member}

/-- A nested group takes one level of the bound. -/
theorem isWithin_of_nested {depth : Nat} {sub : GroupId} (h : s.isWithin depth g = true)
    (hsub : .group sub ∈ (s.group g).members) :
    ∃ room, depth = room + 1 ∧ s.isWithin room sub = true := by
  have hnested : sub ∈ s.nested g := List.mem_filterMap.2 ⟨.group sub, hsub, rfl⟩
  cases depth with
  | zero =>
      rw [isWithin, List.isEmpty_iff] at h
      rw [h] at hnested
      cases hnested
  | succ room =>
      rw [isWithin, List.all_eq_true] at h
      exact ⟨room, rfl, h sub hnested⟩

/-! ## Free members -/

theorem Free.exists_wide (h : s.Free root m) :
    ∃ g, s.Contains root (.group g) ∧ s.Wide root g ∧ s.Spreads g m := by
  induction h with
  | unbounded hin hmax hmin hspreads => exact ⟨_, hin, .inl ⟨hmax, hmin⟩, hspreads⟩
  | spread hfree hspreads ih =>
      obtain ⟨_, hin, -, hspreads'⟩ := ih
      exact ⟨_, hin.member hspreads'.lonely.mem, .inr hfree, hspreads⟩

/-- A free member belongs to a group that may be repeated at will. -/
theorem Free.of_mem (h : s.Free root m) (hs : s.Built) (hm : m ∈ (s.group g).members) :
    s.Wide root g ∧ s.Spreads g m := by
  obtain ⟨g', -, hwide, hspreads⟩ := h.exists_wide
  have howner := hs.forest.owner hspreads.lonely.mem
  rw [hs.forest.owner hm] at howner
  obtain rfl := Option.some.inj howner
  exact ⟨hwide, hspreads⟩

theorem Free.max_ne_zero (h : s.Free root m) : (s.occurs m).max ≠ some 0 := by
  obtain ⟨_, -, -, hspreads⟩ := h.exists_wide
  exact hspreads.max_ne_zero

theorem Free.min_le_one (h : s.Free root m) : (s.occurs m).min.toNat ≤ 1 := by
  obtain ⟨_, -, -, hspreads⟩ := h.exists_wide
  exact hspreads.min_le_one

theorem not_free_root (hs : s.Built) : ¬s.Free root (.group root) := by
  intro h
  obtain ⟨_, hin, -, hspreads⟩ := h.exists_wide
  exact hin.ne_root hs.forest hspreads.lonely.mem rfl

/-! ## Freed bounds -/

open Classical in
/-- The bounds without the maxima that do not bind, and without the minima of groups that have no
members. -/
noncomputable def freed (s : Schema) (root : GroupId) (m : Member) : Occurs where
  min := if s.IsVoid m then 0 else (s.occurs m).min
  max := if s.Free root m then none else (s.occurs m).max

theorem max_of_free (h : s.Free root m) : (s.freed root m).max = none :=
  if_pos h

theorem max_of_not_free (h : ¬s.Free root m) : (s.freed root m).max = (s.occurs m).max :=
  if_neg h

theorem max_freed_root (hs : s.Built) :
    (s.freed root (.group root)).max = (s.group root).occurs.max :=
  max_of_not_free (not_free_root hs)

theorem min_freed (h : ¬s.IsVoid m) : (s.freed root m).min = (s.occurs m).min :=
  if_neg h

theorem freed_leaf (hm : m.isGroup = false) (h : ¬s.Free root m) : s.freed root m = s.occurs m := by
  unfold freed
  rw [if_neg (not_isVoid_leaf hm), if_neg h]

theorem min_freed_le (s : Schema) (root : GroupId) (m : Member) :
    (s.freed root m).min.toNat ≤ (s.occurs m).min.toNat := by
  unfold freed
  dsimp only
  split
  · exact Nat.zero_le _
  · exact Nat.le_refl _

theorem mem_max_of_freed {n : UInt32} (h : n ∈ (s.freed root m).max) : n ∈ (s.occurs m).max := by
  unfold freed at h
  dsimp only at h
  split at h
  · cases h
  · exact h

theorem Built.widened_freed (h : s.Built) (root : GroupId) : s.Widened (s.freed root) :=
  ⟨min_freed_le s root, fun _ => min_freed, fun m n hn =>
    (min_freed_le s root m).trans (h.min_le_max m n (mem_max_of_freed hn))⟩

/-- A group that has no members need not occur. -/
theorem hasAlternatives_freed : s.HasAlternatives (s.freed root) root := by
  intro g _ _ hmin hnil
  exact hmin (if_pos ⟨g, rfl, hnil⟩)

/-- All numbers that the bounds admit are admitted without those that do not bind. -/
theorem admits_freed {n : Nat} (h : (s.occurs m).Admits n) : (s.freed root m).Admits n :=
  ⟨(min_freed_le s root m).trans h.1, fun k hk => h.2 k (mem_max_of_freed hk)⟩

/-- Of a member whose maximum does not bind there may be any number. -/
theorem Free.admits (h : s.Free root m) {n : Nat} (hn : 1 ≤ n) : (s.freed root m).Admits n := by
  refine ⟨(min_freed_le s root m).trans (h.min_le_one.trans hn), fun k hk => ?_⟩
  rw [max_of_free h] at hk
  cases hk

theorem Wide.max_freed (h : s.Wide root g) : (s.freed root (.group g)).max = none := by
  by_cases hfree : s.Free root (.group g)
  · exact max_of_free hfree
  · rw [max_of_not_free hfree]
    exact (h.resolve_right hfree).1

theorem Wide.min_le_one (h : s.Wide root g) : (s.group g).occurs.min.toNat ≤ 1 := by
  rcases h with ⟨-, hmin⟩ | hfree
  · exact hmin
  · exact hfree.min_le_one

/-- A group that may be repeated at will occurs as often as one likes. -/
theorem Wide.admits (h : s.Wide root g) {n : Nat} (hn : 1 ≤ n) :
    (s.freed root (.group g)).Admits n := by
  refine ⟨(min_freed_le s root _).trans (h.min_le_one.trans hn), fun k hk => ?_⟩
  rw [h.max_freed] at hk
  cases hk

theorem Wide.repeats (h : s.Wide root g) : s.Repeats root g := by
  rcases h with ⟨hmax, -⟩ | hfree
  · exact .inl ⟨by simp [hmax], by simp [hmax]⟩
  · exact .inr hfree

theorem repeats_of_admits {n : Nat} (hn : 2 ≤ n) (h : (s.freed root (.group g)).Admits n) :
    s.Repeats root g := by
  by_cases hfree : s.Free root (.group g)
  · exact .inr hfree
  have hle := h.2
  rw [max_of_not_free hfree] at hle
  refine .inl ⟨fun hmax => ?_, fun hmax => ?_⟩
  · have hzero : n ≤ 0 := hle 0 hmax
    omega
  · have hone : n ≤ 1 := hle 1 hmax
    omega

/-- A particle of which some number of occurrences is admitted may occur. -/
theorem max_ne_zero_of_admits {n : Nat} (hn : 1 ≤ n) (h : (s.freed root m).Admits n) :
    (s.occurs m).max ≠ some 0 := by
  by_cases hfree : s.Free root m
  · exact hfree.max_ne_zero
  have hle := h.2
  rw [max_of_not_free hfree] at hle
  intro hmax
  have hzero : n ≤ 0 := hle 0 hmax
  omega

/-! ## Firm members -/

namespace Firm

theorem of_lonely (h : s.Firm (.group g)) (hmax : (s.group g).occurs.max ≠ some 0)
    (hm : s.IsLonely g m) : s.Firm m := by
  cases h with
  | leaf hleaf => cases hleaf
  | never hzero => exact absurd hzero hmax
  | group _ hlonely => exact hlonely m hm

/-- A firm particle that has occurred and does not end has not occurred often enough. -/
theorem not_admits {b : Member → Occurs} (h : s.Firm m) (hb : s.Widened b) (hvoid : ¬s.IsVoid m)
    (hhollow : ∀ g, m = .group g → s.Once b m [] → s.isHollow g = true) {n j : Nat} (hn : 1 ≤ n)
    (hopen : ∀ k ∈ (s.occurs m).max, n < k.toNat) (hempty : 0 < j → s.Once b m []) :
    ¬(b m).Admits (n + j) := by
  intro hadmits
  have hmin := hadmits.1
  rw [hb.min_eq m hvoid] at hmin
  cases h with
  | @leaf m hleaf hmax =>
      have hj : j = 0 := by
        by_contra hno
        have honce := hempty (Nat.pos_of_ne_zero hno)
        cases m with
        | group g => cases hleaf
        | element e => cases honce
        | wildcard w => cases honce
      rcases hmax with hmax | hmax
      · have hlt : n < 1 := hopen 1 hmax
        omega
      · have hlt := hopen _ hmax
        omega
  | never hmax =>
      have hlt : n < 0 := hopen 0 hmax
      omega
  | @group g hmax =>
      rcases hmax with hmax | ⟨hmax, hsolid⟩
      · have hlt : n < 1 := hopen 1 hmax
        omega
      · have hj : j = 0 := by
          by_contra hno
          rw [hhollow g rfl (hempty (Nat.pos_of_ne_zero hno))] at hsolid
          cases hsolid
        have hlt := hopen _ hmax
        subst hj
        exact absurd hmin (Nat.not_le.2 hlt)

end Firm

/-- What can make up a repetition alone is firm, or has no maximum, or is spread by the walk. -/
theorem IsSteady.firm_or (h : s.IsSteady root) (hin : s.Contains root (.group g))
    (hrepeats : s.Repeats root g) (hlonely : s.IsLonely g m)
    (hcompositor : (s.group g).compositor ≠ .all) (hmax : (s.occurs m).max ≠ some 0) :
    s.Firm m ∨ s.Wide root g ∧ ((s.freed root m).max = none ∨
      m.isGroup = false ∧ (s.group g).compositor = .choice) := by
  rcases h.lonely g m hin hrepeats hlonely with hfirm | ⟨hwide, hcases⟩
  · exact .inl hfirm
  refine .inr ⟨hwide, ?_⟩
  rcases hcases with hmin | hnone | hchoice
  · by_cases hleaf : m.isGroup = false ∧ (s.group g).compositor = .choice
    · exact .inr hleaf
    have hspreads : s.Spreads g m := by
      refine ⟨hlonely, hmax, hmin, ?_⟩
      by_cases hgroup : m.isGroup = true
      · exact .inl hgroup
      · refine .inr ?_
        cases hc : (s.group g).compositor with
        | sequence => rfl
        | all => exact absurd hc hcompositor
        | choice => exact absurd ⟨by simpa using hgroup, hc⟩ hleaf
    have hfree : s.Free root m := by
      rcases hwide with ⟨hnone, hone⟩ | hfree
      · exact .unbounded hin hnone hone hspreads
      · exact .spread hfree hspreads
    exact .inl (max_of_free hfree)
  · refine .inl ?_
    unfold freed
    dsimp only
    split
    · rfl
    · exact hnone
  · exact .inr hchoice

end Conform.Schema
