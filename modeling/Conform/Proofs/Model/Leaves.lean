import Conform.Proofs.Model.Steady
/-!
# The leaves of a word

Every name in a word of a particle belongs to a leaf in it. Where all names are different, the name
tells the member of a group that a child belongs to.
-/

namespace Conform

namespace Schema

/-- The name belongs to a leaf in a member. -/
def Has (s : Schema) (m : Member) (n : QName) : Prop :=
  ∃ l ∈ s.leavesIn m, s.passes l n = true

variable {s : Schema} {root g : GroupId} {m : Member} {n : QName}

theorem has_leaf (hm : m.isGroup = false) : s.Has m n ↔ s.passes m n = true := by
  cases m with
  | group g => cases hm
  | element e => simp [Has, leavesIn]
  | wildcard w => simp [Has, leavesIn]

theorem leavesIn_eq (hmax : (s.occurs m).max ≠ some 0) : s.leavesIn m = s.leavesOnce m := by
  cases m with
  | group g =>
      have hoccurs : (s.group g).occurs.isEmpty = false := decide_eq_false hmax
      simp [leavesIn, leavesOnce, hoccurs]
  | element e => rfl
  | wildcard w => rfl

/-- A group that may occur has the names of its members. -/
theorem Has.group (h : s.Has m n) (hs : s.Built) (hm : m ∈ (s.group g).members)
    (hmax : (s.group g).occurs.max ≠ some 0) : s.Has (.group g) n := by
  obtain ⟨l, hl, hn⟩ := h
  refine ⟨l, ?_, hn⟩
  rw [leavesIn_eq (m := .group g) hmax]
  show l ∈ s.leaves g
  rw [hs.leaves_eq_flatMap]
  exact List.mem_flatMap.2 ⟨m, hm, hl⟩

/-- A group without members has no names. -/
theorem Has.not_isVoid (h : s.Has m n) (hs : s.Built) : ¬s.IsVoid m := by
  rintro ⟨g, rfl, hnil⟩
  obtain ⟨l, hl, -⟩ := h
  unfold leavesIn at hl
  dsimp only at hl
  split at hl
  · cases hl
  · rw [hs.leaves_eq_flatMap, hnil] at hl
    cases hl

end Schema

namespace Components

/-! ## Elements of different names -/

theorem DistinctElements.sublist {c : Components} {ms ms' : List Member}
    (h : c.DistinctElements ms) (hsub : ms'.Sublist ms) : c.DistinctElements ms' := by
  obtain ⟨es, rfl, hnodup⟩ := h
  obtain ⟨es', hes, rfl⟩ := List.sublist_map_iff.1 hsub
  exact ⟨es', rfl, hnodup.sublist (hes.map _)⟩

end Components

namespace Schema

open Components

variable {s : Schema} {root g sub : GroupId} {m m' : Member} {n : QName}

theorem Built.distinct_leavesIn (hs : s.Built) (h : s.DistinctElements (s.leaves g))
    (hm : m ∈ (s.group g).members) : s.DistinctElements (s.leavesIn m) := by
  rw [hs.leaves_eq_flatMap] at h
  refine h.sublist ?_
  obtain ⟨before, after, hmembers⟩ := List.append_of_mem hm
  rw [hmembers, List.flatMap_append, List.flatMap_cons]
  exact (List.sublist_append_left _ _).trans (List.sublist_append_right _ _)

/-- The leaves in a nested group have different names as well. -/
theorem Built.distinct_leaves (hs : s.Built) (h : s.DistinctElements (s.leaves g))
    (hsub : .group sub ∈ (s.group g).members) (hmax : (s.group sub).occurs.max ≠ some 0) :
    s.DistinctElements (s.leaves sub) := by
  have hin := hs.distinct_leavesIn h hsub
  rwa [leavesIn_eq (m := .group sub) hmax] at hin

/-- A name belongs to one member of a group at most. -/
theorem Built.eq_of_has (hs : s.Built) (h : s.DistinctElements (s.leaves g))
    (hm : m ∈ (s.group g).members) (hm' : m' ∈ (s.group g).members) (hn : s.Has m n)
    (hn' : s.Has m' n) : m = m' := by
  obtain ⟨l, hl, hpasses⟩ := hn
  obtain ⟨l', hl', hpasses'⟩ := hn'
  have hmem : ∀ {x y}, x ∈ (s.group g).members → y ∈ s.leavesIn x → y ∈ s.leaves g := by
    intro x y hx hy
    rw [hs.leaves_eq_flatMap]
    exact List.mem_flatMap.2 ⟨x, hx, hy⟩
  obtain rfl := h.eq_of_passes (hmem hm hl) (hmem hm' hl') hpasses hpasses'
  obtain ⟨before, after, hmembers⟩ := List.append_of_mem hm
  have hnodup := h.nodup
  rw [hs.leaves_eq_flatMap, hmembers, List.flatMap_append, List.flatMap_cons, List.nodup_append,
    List.nodup_append] at hnodup
  obtain ⟨-, ⟨-, -, hlater⟩, hearlier⟩ := hnodup
  rw [hmembers, List.mem_append, List.mem_cons] at hm'
  rcases hm' with hin | rfl | hin
  · exact absurd rfl (hearlier l (List.mem_flatMap.2 ⟨m', hin, hl'⟩) l (List.mem_append_left _ hl))
  · rfl
  · exact absurd rfl (hlater l hl l (List.mem_flatMap.2 ⟨m', hin, hl'⟩))

end Schema

namespace Components

variable {s : Schema} {root : GroupId}

/-! ## Names in words -/

mutual

theorem Words.has (hs : s.Built) {m : Member} {w : List QName} :
    s.Words (s.freed root) m w → ∀ n ∈ w, s.Has m n
  | .intro hadmits htimes => fun n hn => by
      obtain ⟨hpos, hl⟩ := htimes.leaves hs n hn
      unfold Schema.Has
      rwa [Schema.leavesIn_eq (Schema.max_ne_zero_of_admits hpos hadmits)]

theorem Times.leaves (hs : s.Built) {m : Member} {k : Nat} {w : List QName} :
    s.Times (s.freed root) m k w →
      ∀ n ∈ w, 1 ≤ k ∧ ∃ l ∈ s.leavesOnce m, s.passes l n = true
  | .zero => fun n hn => by cases hn
  | .succ honce hrest => fun n hn => by
      refine ⟨Nat.le_add_left 1 _, ?_⟩
      rcases List.mem_append.1 hn with hn | hn
      · exact honce.leaves hs n hn
      · exact (hrest.leaves hs n hn).2

theorem Once.leaves (hs : s.Built) {m : Member} {w : List QName} :
    s.Once (s.freed root) m w → ∀ n ∈ w, ∃ l ∈ s.leavesOnce m, s.passes l n = true
  | .leaf (m := m) hpasses => fun n hn => by
      obtain rfl := List.mem_singleton.1 hn
      cases m with
      | group g => cases hpasses
      | element e => exact ⟨_, List.mem_singleton.2 rfl, hpasses⟩
      | wildcard x => exact ⟨_, List.mem_singleton.2 rfl, hpasses⟩
  | .sequence (g := g) _ hrow => fun n hn => by
      obtain ⟨x, hx, l, hl, hpasses⟩ := hrow.has hs n hn
      refine ⟨l, ?_, hpasses⟩
      show l ∈ s.leaves g
      rw [hs.leaves_eq_flatMap]
      exact List.mem_flatMap.2 ⟨x, hx, hl⟩
  | .choice (g := g) _ hx hword => fun n hn => by
      obtain ⟨l, hl, hpasses⟩ := hword.has hs n hn
      refine ⟨l, ?_, hpasses⟩
      show l ∈ s.leaves g
      rw [hs.leaves_eq_flatMap]
      exact List.mem_flatMap.2 ⟨_, hx, hl⟩
  | .all (g := g) _ hperm hrow => fun n hn => by
      obtain ⟨x, hx, l, hl, hpasses⟩ := hrow.has hs n hn
      refine ⟨l, ?_, hpasses⟩
      show l ∈ s.leaves g
      rw [hs.leaves_eq_flatMap]
      exact List.mem_flatMap.2 ⟨x, hperm.subset hx, hl⟩

theorem Row.has (hs : s.Built) {ms : List Member} {w : List QName} :
    s.Row (s.freed root) ms w → ∀ n ∈ w, ∃ m ∈ ms, s.Has m n
  | .nil => fun n hn => by cases hn
  | .cons hword hrest => fun n hn => by
      rcases List.mem_append.1 hn with hn | hn
      · exact ⟨_, List.mem_cons_self .., hword.has hs n hn⟩
      · obtain ⟨m, hm, hhas⟩ := hrest.has hs n hn
        exact ⟨m, List.mem_cons_of_mem _ hm, hhas⟩

end

end Components

end Conform
