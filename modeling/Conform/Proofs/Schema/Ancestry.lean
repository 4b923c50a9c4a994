import Conform.Proofs.Listing
import Conform.Proofs.Model.Bulk
import Mathlib.Data.List.Chain
/-!
# The groups around a particle

A row of groups leads from a group down to each particle in it. The bounds of a particle are folded
with those of its owner, of the owner of that, and so on. In a forest these are the groups of the
row that leads down to the particle from the group at the top, the innermost first.
-/

namespace Conform

namespace Listing

variable {κ ν : Type} [DecidableEq κ]

/-- What stands under a key if every value follows from its key. -/
theorem get?_ofList_map (f : κ → ν) (ks : List κ) (k : κ) :
    (ofList (ks.map fun k => (k, f k))).get? k = if k ∈ ks then some (f k) else none := by
  have hfold : ∀ (ks : List κ) (l : Listing κ ν),
      ((ks.map fun k => (k, f k)).foldl (fun l e => l.insert e.1 e.2) l).get? k =
        if k ∈ ks then some (f k) else l.get? k := by
    intro ks
    induction ks with
    | nil => exact fun _ => rfl
    | cons k' ks ih =>
        intro l
        rw [List.map_cons, List.foldl_cons, ih, get?_insert]
        by_cases hk : k ∈ ks
        · simp [hk]
        · by_cases heq : k' = k
          · simp [heq]
          · simp [hk, heq, Ne.symm heq]
  exact hfold ks empty

end Listing

namespace Components

/-- The groups from one down to the owner of a particle, each a member of the one before. -/
inductive Lineage (c : Components) : GroupId → List GroupId → Member → Prop
  | owner {g : GroupId} {m : Member} : m ∈ (c.group g).members → Lineage c g [g] m
  | nested {g sub : GroupId} {gs : List GroupId} {m : Member} :
      .group sub ∈ (c.group g).members → Lineage c sub gs m → Lineage c g (g :: gs) m

/-- Whether a member of a group may be left out for another one. -/
def isAlternative (c : Components) (g : GroupId) : Bool :=
  (c.group g).compositor = .choice && 1 < (c.group g).members.length

/-- The bounds of a particle in a group, folded with those of the group. -/
def around (c : Components) (g : GroupId) (o : Occurs) : Occurs :=
  (if c.isAlternative g then { o with min := 0 } else o).multiply (c.group g).occurs

variable {c : Components} {g r : GroupId} {gs : List GroupId} {m : Member}

namespace Lineage

theorem append {sub : GroupId} (h : c.Lineage r gs (.group sub)) (hm : m ∈ (c.group sub).members) :
    c.Lineage r (gs ++ [sub]) m := by
  generalize hx : Member.group sub = x at h
  induction h with
  | owner hsub =>
      subst hx
      exact .nested hsub (.owner hm)
  | nested hsub _ ih => exact .nested hsub (ih hx)

theorem contains (h : c.Lineage r gs m) : c.Contains r m := by
  induction h with
  | owner hm => exact .member .root hm
  | nested hsub _ ih => exact Contains.trans (.member .root hsub) ih

/-- Every particle in a group other than the group itself has a lineage. -/
theorem of_contains (h : c.Contains r m) (hne : m ≠ .group r) : ∃ gs, c.Lineage r gs m := by
  induction h with
  | root => exact absurd rfl hne
  | @member g m hg hm ih =>
      by_cases hroot : g = r
      · subst hroot
        exact ⟨_, .owner hm⟩
      · obtain ⟨gs, hgs⟩ := ih fun heq => hroot (Member.group.inj heq)
        exact ⟨_, hgs.append hm⟩

theorem isThere (h : c.Lineage r gs m) (hc : c.Forest) : c.hasMember m = true := by
  induction h with
  | owner hm => exact hc.isThere hm
  | nested _ _ ih => exact ih

theorem head?_eq (h : c.Lineage r gs m) : gs.head? = some r := by
  cases h <;> rfl

/-- The last group is the owner of the particle. -/
theorem getLast?_eq (h : c.Lineage r gs m) (hc : c.Forest) : gs.getLast? = c.parent? m := by
  induction h with
  | owner hm => exact (hc.owner hm).symm
  | nested _ h ih =>
      rw [← ih]
      cases h <;> rfl

/-- Each group is the owner of the next one. -/
theorem isChain (h : c.Lineage r gs m) (hc : c.Forest) :
    gs.IsChain fun g sub => (c.group sub).parent = some g := by
  induction h with
  | owner _ => exact .singleton _
  | nested hsub h ih =>
      refine List.isChain_cons.2 ⟨fun x hx => ?_, ih⟩
      rw [h.head?_eq] at hx
      obtain rfl := Option.some.inj hx
      exact hc.owner hsub

theorem length_le (h : c.Lineage r gs m) (hc : c.Forest) : gs.length ≤ c.groups.size := by
  have hindex : gs.length ≤ r.index + 1 ∧ r.index < c.groups.size := by
    induction h with
    | owner hm => exact ⟨Nat.le_add_left .., index_lt_size hm⟩
    | nested hsub _ ih =>
        have hlt := hc.index_lt hsub
        rw [List.length_cons]
        exact ⟨by omega, index_lt_size hsub⟩
  omega

theorem foldFrom_eq (h : c.Lineage r gs m) (hc : c.Forest) (fuel : Nat) (o : Occurs) :
    c.foldFrom (gs.length + fuel) (c.parent? m) o =
      c.foldFrom fuel (c.group r).parent (gs.foldr c.around o) := by
  induction h generalizing fuel with
  | owner hm =>
      rw [hc.owner hm, Nat.add_comm]
      rfl
  | @nested g sub gs m hsub _ ih =>
      have howner : (c.group sub).parent = some g := hc.owner hsub
      rw [List.length_cons, Nat.add_assoc, Nat.add_comm 1, ih, howner]
      rfl

/-- The bounds of a particle are folded with those of the groups that lead down to it. -/
theorem foldOccurs_eq (h : c.Lineage r gs m) (hc : c.Forest) (htop : (c.group r).parent = none) :
    c.foldOccurs m = gs.foldr c.around (c.occurs m) := by
  obtain ⟨fuel, hfuel⟩ : ∃ fuel, c.groups.size + 1 = gs.length + fuel :=
    Nat.exists_eq_add_of_le ((h.length_le hc).trans (Nat.le_succ _))
  rw [foldOccurs, hfuel, h.foldFrom_eq hc, htop]
  cases fuel <;> rfl

end Lineage

/-- What is not there has no owner. -/
theorem hasMember_of_parent? (h : (c.parent? m).isSome) : c.hasMember m = true := by
  by_contra hno
  have hnone : c.parent? m = none := by
    cases m <;> simp only [hasMember, decide_eq_true_eq, Nat.not_lt] at hno
    · rw [parent?, element, Array.getElem?_eq_none hno]
      rfl
    · rw [parent?, wildcard, Array.getElem?_eq_none hno]
      rfl
    · rw [parent?, group, Array.getElem?_eq_none hno]
      rfl
  rw [hnone] at h
  cases h

theorem get?_foldedOccurs (c : Components) (m : Member) : c.foldedOccurs.get? m =
    if (c.parent? m).isSome then some (c.foldOccurs m) else none := by
  have hmem : m ∈ c.particles.filter (fun m => (c.parent? m).isSome) ↔ (c.parent? m).isSome := by
    rw [List.mem_filter]
    exact ⟨fun h => h.2, fun h => ⟨mem_particles (hasMember_of_parent? h), h⟩⟩
  rw [foldedOccurs, Listing.get?_ofList_map]
  simp only [hmem]

end Components

namespace Schema

open Components

variable {s : Schema} {r : GroupId} {gs : List GroupId} {m : Member}

/-- The effective bounds of a particle are its folded ones. -/
theorem Built.effectiveOccurs_eq (hs : s.Built) (h : s.Lineage r gs m)
    (htop : (s.group r).parent = none) :
    s.effectiveOccurs m = gs.foldr s.around (s.occurs m) := by
  have hparent : (s.parent? m).isSome := by
    rw [← h.getLast?_eq hs.forest]
    exact List.getLast?_isSome.2 (by cases h <;> nofun)
  rw [← h.foldOccurs_eq hs.forest htop]
  obtain ⟨c, -, hbuild⟩ := id hs
  obtain rfl := (build_ok hbuild).components
  rw [effectiveOccurs, (build_ok hbuild).folded, get?_foldedOccurs, if_pos hparent]
  rfl

end Schema

end Conform
