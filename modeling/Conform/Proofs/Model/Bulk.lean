import Conform.Proofs.Model.Loosened
import Mathlib.Algebra.Order.BigOperators.Group.List
/-!
# How many particles are in a particle

As the groups form a forest, a particle comes only once in the content of a group. So there are no
more particles in it than there are at all.
-/

namespace Conform.Components

/-- A particle and the particles in it, down to groups at the depth `fuel`. -/
def within (c : Components) : Nat → Member → List Member
  | fuel + 1, .group g => .group g :: (c.group g).members.flatMap (c.within fuel)
  | _, m => [m]

/-- The number of particles in a particle, with itself. -/
def bulk (c : Components) (m : Member) : Nat := (c.within (c.groups.size + 1) m).length

variable {c : Components} {g sub : GroupId} {m x : Member}

theorem within_leaf (hm : m.isGroup = false) (fuel : Nat) : c.within fuel m = [m] := by
  cases m with
  | group g => cases hm
  | element e => cases fuel <;> rfl
  | wildcard w => cases fuel <;> rfl

/-- Nested groups have smaller handles, so the handle of a group is depth enough. -/
theorem within_congr (h : c.Forest) : ∀ {fuel fuel' : Nat} {g : GroupId}, g.index < fuel →
    g.index < fuel' → c.within fuel (.group g) = c.within fuel' (.group g) := by
  intro fuel
  induction fuel with
  | zero => exact fun hlt _ => absurd hlt (Nat.not_lt_zero _)
  | succ fuel ih =>
      intro fuel' g hlt hlt'
      obtain _ | fuel' := fuel'
      · exact absurd hlt' (Nat.not_lt_zero _)
      rw [within, within]
      refine congrArg (Member.group g :: ·) (List.flatMap_congr fun m hm => ?_)
      cases m with
      | group sub =>
          have hsub := h.index_lt hm
          exact ih (by omega) (by omega)
      | element e => rw [within_leaf rfl, within_leaf rfl]
      | wildcard w => rw [within_leaf rfl, within_leaf rfl]

theorem bulk_pos (m : Member) : 0 < c.bulk m := by
  unfold bulk within
  split <;> simp

/-- A group has itself and what is in its members. -/
theorem bulk_group (h : c.Forest) (g : GroupId) :
    c.bulk (.group g) = 1 + ((c.group g).members.map c.bulk).sum := by
  rw [bulk, within, List.length_cons, List.length_flatMap, Nat.add_comm]
  refine congrArg (1 + List.sum ·) (List.map_congr_left fun m hm => ?_)
  cases m with
  | group sub =>
      have hsub := h.index_lt hm
      have hsize := index_lt_size hm
      have hfuel : c.within c.groups.size (.group sub) =
          c.within (c.groups.size + 1) (.group sub) := within_congr h (by omega) (by omega)
      rw [bulk, hfuel]
  | element e => rw [bulk, within_leaf rfl, within_leaf rfl]
  | wildcard w => rw [bulk, within_leaf rfl, within_leaf rfl]

theorem Contains.trans (h : c.Contains g (.group sub)) (hx : c.Contains sub x) :
    c.Contains g x := by
  induction hx with
  | root => exact h
  | member _ hm ih => exact ih.member hm

theorem contains_of_within : ∀ {fuel : Nat} {g : GroupId} {x : Member},
    x ∈ c.within fuel (.group g) → c.Contains g x := by
  intro fuel
  induction fuel with
  | zero =>
      intro g x hx
      rw [within, List.mem_singleton] at hx
      · exact hx ▸ .root
      · exact nofun
  | succ fuel ih =>
      intro g x hx
      rw [within, List.mem_cons, List.mem_flatMap] at hx
      rcases hx with rfl | ⟨m, hm, hx⟩
      · exact .root
      · have hmember : c.Contains g m := .member .root hm
        cases m with
        | group sub => exact hmember.trans (ih hx)
        | element e =>
            rw [within_leaf rfl, List.mem_singleton] at hx
            exact hx ▸ hmember
        | wildcard w =>
            rw [within_leaf rfl, List.mem_singleton] at hx
            exact hx ▸ hmember

/-- The owner of what is below a group is not below it. -/
theorem Contains.not_owner (h : c.Forest) {g sub : GroupId}
    (hsub : .group sub ∈ (c.group g).members) : ¬ c.Contains sub (.group g) := by
  intro hback
  have hlt := h.index_lt hsub
  have hle := hback.index_le h g rfl
  omega

/-- No particle is in two members of a group. -/
theorem Contains.disjoint (h : c.Forest) {g a b : GroupId} (ha : .group a ∈ (c.group g).members)
    (hb : .group b ∈ (c.group g).members) (hne : a ≠ b) (hx : c.Contains a x) :
    ¬ c.Contains b x := by
  induction hx with
  | root =>
      intro hx
      cases hx with
      | root => exact hne rfl
      | member hp hm =>
          obtain rfl := Option.some.inj ((h.owner hm).symm.trans (h.owner ha))
          exact not_owner h hb hp
  | member hp hm ih =>
      intro hx
      cases hx with
      | root =>
          obtain rfl := Option.some.inj ((h.owner hm).symm.trans (h.owner hb))
          exact not_owner h ha hp
      | member hp' hm' =>
          obtain rfl := Option.some.inj ((h.owner hm').symm.trans (h.owner hm))
          exact ih hp'

/-- A member that is no group is not in another one. -/
theorem Contains.not_leaf (h : c.Forest) {g a : GroupId} (ha : .group a ∈ (c.group g).members)
    (hm : m ∈ (c.group g).members) (hleaf : m.isGroup = false) : ¬ c.Contains a m := by
  intro hx
  cases hx with
  | root => cases hleaf
  | member hp hm' =>
      obtain rfl := Option.some.inj ((h.owner hm').symm.trans (h.owner hm))
      exact not_owner h ha hp

theorem nodup_within (h : c.Forest) : ∀ {fuel : Nat} {m : Member}, (c.within fuel m).Nodup := by
  intro fuel
  induction fuel with
  | zero =>
      intro m
      rw [within]
      · exact List.nodup_singleton _
      · exact nofun
  | succ fuel ih =>
      intro m
      cases m with
      | element e => rw [within_leaf rfl]; exact List.nodup_singleton _
      | wildcard w => rw [within_leaf rfl]; exact List.nodup_singleton _
      | group g =>
          have hin : ∀ {m x}, m ∈ (c.group g).members → x ∈ c.within fuel m →
              (m.isGroup = false ∧ x = m) ∨ ∃ a, m = .group a ∧ c.Contains a x := by
            intro m x hm hx
            cases m with
            | group a => exact .inr ⟨a, rfl, contains_of_within hx⟩
            | element e =>
                rw [within_leaf rfl, List.mem_singleton] at hx
                exact .inl ⟨rfl, hx⟩
            | wildcard w =>
                rw [within_leaf rfl, List.mem_singleton] at hx
                exact .inl ⟨rfl, hx⟩
          rw [within, List.nodup_cons, List.nodup_flatMap]
          refine ⟨fun hx => ?_, fun m _ => ih, ?_⟩
          · obtain ⟨m, hm, hx⟩ := List.mem_flatMap.1 hx
            rcases hin hm hx with ⟨hleaf, rfl⟩ | ⟨a, rfl, hback⟩
            · cases hleaf
            · exact Contains.not_owner h hm hback
          · refine (h.nodup g).imp_of_mem fun {m m'} hm hm' hne x hx hx' => ?_
            rcases hin hm hx with ⟨hleaf, rfl⟩ | ⟨a, rfl, hbelow⟩ <;>
              rcases hin hm' hx' with ⟨hleaf', heq⟩ | ⟨b, rfl, hbelow'⟩
            · exact hne heq
            · exact Contains.not_leaf h hm' hm hleaf hbelow'
            · exact Contains.not_leaf h hm (heq ▸ hm') (heq ▸ hleaf') hbelow
            · exact Contains.disjoint h hm hm' (fun heq => hne (congrArg _ heq)) hbelow hbelow'

/-- No particle has more in it than there are, if it is there itself. -/
theorem bulk_le (h : c.Forest) (m : Member) : c.bulk m ≤ c.particles.length + 1 := by
  have hsub : c.within (c.groups.size + 1) m ⊆ m :: c.particles := by
    intro x hx
    cases m with
    | group g =>
        cases contains_of_within hx with
        | root => exact List.mem_cons_self
        | member _ hm => exact List.mem_cons_of_mem _ (mem_particles (h.isThere hm))
    | element e =>
        rw [within_leaf rfl, List.mem_singleton] at hx
        exact hx ▸ List.mem_cons_self
    | wildcard w =>
        rw [within_leaf rfl, List.mem_singleton] at hx
        exact hx ▸ List.mem_cons_self
  exact ((nodup_within h).subperm hsub).length_le

end Conform.Components

namespace Conform.Schema

open Components

variable {s : Schema}

theorem bulk_leaf {m : Member} (hm : m.isGroup = false) : s.bulk m = 1 := by
  rw [bulk, within_leaf hm]
  rfl

/-- A group has its leaves in it, and itself. -/
theorem Built.length_leaves_lt (hs : s.Built) : ∀ g : GroupId,
    (s.leaves g).length < s.bulk (.group g) := by
  intro g
  induction hg : g.index using Nat.strongRecOn generalizing g with
  | ind i ih =>
      rw [hs.leaves_eq_flatMap, bulk_group hs.forest, List.length_flatMap, Nat.add_comm]
      refine Nat.lt_succ_of_le (List.sum_le_sum fun m hm => ?_)
      cases m with
      | group sub =>
          have hlt := ih sub.index (hg ▸ hs.forest.index_lt hm) sub rfl
          simp only [leavesIn]
          split
          · exact Nat.zero_le _
          · exact hlt.le
      | element e => exact (bulk_leaf (s := s) (m := .element e) rfl).ge
      | wildcard x => exact (bulk_leaf (s := s) (m := .wildcard x) rfl).ge

/-- The leaves of a group are there. -/
theorem Built.mem_particles_of_leaf (hs : s.Built) {g : GroupId} {m : Member}
    (hm : m ∈ s.leaves g) : m ∈ s.particles :=
  hs.leaves_induction (fun hmember _ => mem_particles (hs.forest.isThere hmember))
    (fun _ _ _ ih => ih) hm

end Conform.Schema
