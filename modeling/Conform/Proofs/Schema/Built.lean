import Conform.Proofs.Schema.Forest
import Mathlib.Data.List.Basic
/-!
# Built schemas

What is known of a group in a built schema follows from what is known of the groups nested in it.
The groups are put in an order first in which the nested ones come before, so that every fact is
worked out once.
-/

namespace Conform.Components

/-- Every group of a list comes after the groups nested in it. -/
def NestedFirst (c : Components) (order : List GroupId) : Prop :=
  ∀ before id, before ++ [id] <+: order → ∀ sub ∈ c.nested id, sub ∈ before

theorem nestedFirst_nil (c : Components) : c.NestedFirst [] := by
  intro before id h
  simp at h

theorem NestedFirst.snoc {c : Components} {order : List GroupId} {id : GroupId}
    (h : c.NestedFirst order) (hid : ∀ sub ∈ c.nested id, sub ∈ order) :
    c.NestedFirst (order ++ [id]) := by
  intro before x hpre sub hsub
  rcases List.prefix_concat_iff.1 hpre with heq | hpre
  · obtain ⟨rfl, hx⟩ := List.append_inj' heq rfl
    obtain rfl : x = id := by simpa using hx
    exact hid sub hsub
  · exact h before x hpre sub hsub

/-- Steps that each finish a group and keep the order do so one after the other. -/
theorem foldlM_nestedFirst {c : Components} {α : Type} (key : α → GroupId)
    (step : List GroupId → α → Except Failure (List GroupId))
    (hstep : ∀ {finished x finished'}, step finished x = .ok finished' →
      c.NestedFirst finished →
      c.NestedFirst finished' ∧ finished <+: finished' ∧ key x ∈ finished') :
    ∀ {xs : List α} {finished finished' : List GroupId},
      xs.foldlM step finished = .ok finished' → c.NestedFirst finished →
      c.NestedFirst finished' ∧ finished <+: finished' ∧ ∀ x ∈ xs, key x ∈ finished' := by
  intro xs
  induction xs with
  | nil =>
      intro finished finished' h hfirst
      cases h
      exact ⟨hfirst, List.prefix_rfl, by simp⟩
  | cons x rest ih =>
      intro finished finished' h hfirst
      simp only [List.foldlM_cons, bind, Except.bind] at h
      split at h
      · cases h
      rename_i next hnext
      obtain ⟨hnextFirst, hpre, hin⟩ := hstep hnext hfirst
      obtain ⟨hlast, hpre', hrest⟩ := ih h hnextFirst
      refine ⟨hlast, hpre.trans hpre', ?_⟩
      intro y hy
      rcases List.mem_cons.1 hy with rfl | hy
      · exact hpre'.subset hin
      · exact hrest y hy

/-- A visit finishes the group and leaves what is finished in order. -/
theorem visit_ok {c : Components} : ∀ {fuel : Nat} {trail : List GroupId} {id : GroupId}
    {finished finished' : List GroupId}, c.visit fuel trail id finished = .ok finished' →
      c.NestedFirst finished → c.NestedFirst finished' ∧ finished <+: finished' ∧ id ∈ finished'
  | 0, _, _, _, _, h => by simp [visit] at h
  | fuel + 1, trail, id, finished, finished', h => by
      intro hfirst
      simp only [visit] at h
      split at h
      · rename_i hin
        cases h
        exact ⟨hfirst, List.prefix_rfl, hin⟩
      split at h
      · cases h
      simp only [bind, Except.bind, pure, Except.pure] at h
      split at h
      · cases h
      rename_i nested hnested
      cases h
      obtain ⟨hnestedFirst, hpre, hall⟩ :=
        foldlM_nestedFirst (fun sub => sub) _ visit_ok hnested hfirst
      exact ⟨hnestedFirst.snoc hall, hpre.trans (List.prefix_append _ _), by simp⟩

/-- The order of the groups has all of them, each after the groups nested in it. -/
theorem groupOrder_ok {c : Components} {order : List GroupId} (h : c.groupOrder = .ok order) :
    c.NestedFirst order ∧ ∀ id : GroupId, id.index < c.groups.size → id ∈ order := by
  obtain ⟨hfirst, -, hall⟩ :=
    foldlM_nestedFirst (fun i => ⟨i⟩) _ visit_ok h (nestedFirst_nil c)
  exact ⟨hfirst, fun id hid => hall id.index (by simpa using hid)⟩

/-! ## Facts about groups -/

/-- Only what is known of nested groups counts. -/
theorem ofGroup_congr {c : Components} {known known' : GroupId → GroupFacts} {id : GroupId}
    (h : ∀ sub ∈ c.nested id, known sub = known' sub) :
    GroupFacts.ofGroup c known (c.group id) = GroupFacts.ofGroup c known' (c.group id) := by
  have hsub : ∀ sub, Member.group sub ∈ (c.group id).members → known sub = known' sub :=
    fun sub hsub => h sub (List.mem_filterMap.2 ⟨_, hsub, rfl⟩)
  simp only [GroupFacts.ofGroup, GroupFacts.mk.injEq]
  refine ⟨congrArg _ (List.map_congr_left ?_), ?_, List.flatMap_congr ?_⟩
  · intro m hm
    cases m with
    | group sub => simp only [hsub sub hm]
    | element e => rfl
    | wildcard w => rfl
  · congr 1
    cases (c.group id).compositor with
    | choice =>
        rw [Bool.eq_iff_iff, List.any_eq_true, List.any_eq_true]
        refine exists_congr fun m => and_congr_right fun hm => ?_
        cases m with
        | group sub => simp only [hsub sub hm]
        | element e => rfl
        | wildcard w => rfl
    | sequence | all =>
        rw [Bool.eq_iff_iff, List.all_eq_true, List.all_eq_true]
        refine forall_congr' fun m => forall_congr' fun hm => ?_
        cases m with
        | group sub => simp only [hsub sub hm]
        | element e => rfl
        | wildcard w => rfl
  · intro m hm
    cases m with
    | group sub => simp only [hsub sub hm]
    | element e => rfl
    | wildcard w => rfl

theorem NestedFirst.mem_of_mem {c : Components} {order : List GroupId} {id sub : GroupId}
    (h : c.NestedFirst order) (hid : id ∈ order) (hsub : sub ∈ c.nested id) : sub ∈ order := by
  obtain ⟨before, after, rfl⟩ := List.append_of_mem hid
  have hin := h before id ⟨after, by simp⟩ sub hsub
  exact List.mem_append_left _ hin

theorem NestedFirst.of_prefix {c : Components} {order order' : List GroupId}
    (h : c.NestedFirst order) (hpre : order' <+: order) : c.NestedFirst order' :=
  fun before id hbefore => h before id (hbefore.trans hpre)

/-- The fact about a group in a list of facts. -/
def known (facts : Array GroupFacts) (id : GroupId) : GroupFacts := facts[id.index]?.getD default

/-- The facts about some groups follow from those about the groups nested in them. -/
def Settled (c : Components) (facts : Array GroupFacts) (done : List GroupId) : Prop :=
  ∀ id ∈ done, known facts id = GroupFacts.ofGroup c (known facts) (c.group id)

theorem known_setIfInBounds {facts : Array GroupFacts} {id : GroupId} (v : GroupFacts)
    (h : id.index < facts.size) (g : GroupId) :
    known (facts.setIfInBounds id.index v) g = if g = id then v else known facts g := by
  rw [known, known, Array.getElem?_setIfInBounds]
  cases g
  cases id
  simp only [Handle.mk.injEq, eq_comm]
  split
  · rename_i heq
    subst heq
    simp_all
  · rfl

theorem Settled.set {c : Components} {facts : Array GroupFacts} {done : List GroupId}
    {id : GroupId} (h : c.Settled facts done) (hfirst : c.NestedFirst (done ++ [id]))
    (hid : id.index < facts.size) :
    c.Settled (facts.setIfInBounds id.index (GroupFacts.ofGroup c (known facts) (c.group id)))
      (done ++ [id]) := by
  have hknown := known_setIfInBounds (GroupFacts.ofGroup c (known facts) (c.group id)) hid
  by_cases hdone : id ∈ done
  · -- the fact is there already
    have hsame : known (facts.setIfInBounds id.index
        (GroupFacts.ofGroup c (known facts) (c.group id))) = known facts := by
      funext g
      rw [hknown]
      split
      · rename_i heq
        rw [heq, h id hdone]
      · rfl
    intro x hx
    rw [hsame]
    rcases List.mem_append.1 hx with hx | hx
    · exact h x hx
    · obtain rfl : x = id := by simpa using hx
      exact h x hdone
  · have hdoneFirst := hfirst.of_prefix (List.prefix_append _ _)
    have hnested : ∀ x ∈ done ++ [id], ∀ sub ∈ c.nested x, sub ≠ id := by
      rintro x hx sub hsub rfl
      refine hdone ?_
      rcases List.mem_append.1 hx with hx | hx
      · exact hdoneFirst.mem_of_mem hx hsub
      · obtain rfl : x = sub := by simpa using hx
        exact hfirst done x List.prefix_rfl x hsub
    intro x hx
    have hsame : GroupFacts.ofGroup c (known facts) (c.group x) =
        GroupFacts.ofGroup c (known (facts.setIfInBounds id.index
          (GroupFacts.ofGroup c (known facts) (c.group id)))) (c.group x) :=
      ofGroup_congr fun sub hsub => by rw [hknown, if_neg (hnested x hx sub hsub)]
    rw [← hsame, hknown]
    split
    · rename_i heq
      rw [heq]
    · rename_i hne
      rcases List.mem_append.1 hx with hx | hx
      · exact h x hx
      · exact absurd (by simpa using hx) hne

theorem ofGroup_eq_default {c : Components} {id : GroupId} (h : c.groups.size ≤ id.index)
    (f : GroupId → GroupFacts) : GroupFacts.ofGroup c f (c.group id) = default := by
  rw [group, Array.getElem?_eq_none h]
  rfl

theorem size_facts (c : Components) (order : List GroupId) :
    (c.facts order).size = c.groups.size := by
  have hfold : ∀ (order : List GroupId) (facts : Array GroupFacts),
      (order.foldl (fun facts id => facts.setIfInBounds id.index
        (GroupFacts.ofGroup c (known facts) (c.group id))) facts).size = facts.size := by
    intro order
    induction order with
    | nil => intro facts; rfl
    | cons id rest ih =>
        intro facts
        rw [List.foldl_cons, ih, Array.size_setIfInBounds]
  rw [facts]
  exact (hfold order _).trans Array.size_replicate

/-- The facts follow from one another in any order that has the nested groups first. -/
theorem facts_settled {c : Components} {order : List GroupId} (h : c.NestedFirst order) :
    c.Settled (c.facts order) order := by
  have hfold : ∀ (rest done : List GroupId) (facts : Array GroupFacts),
      c.NestedFirst (done ++ rest) → facts.size = c.groups.size → c.Settled facts done →
      c.Settled (rest.foldl (fun facts id => facts.setIfInBounds id.index
        (GroupFacts.ofGroup c (known facts) (c.group id))) facts) (done ++ rest) := by
    intro rest
    induction rest with
    | nil =>
        intro done facts _ _ hdone
        simpa using hdone
    | cons id rest ih =>
        intro done facts hfirst hsize hdone
        have happend : done ++ id :: rest = done ++ [id] ++ rest := by simp
        rw [happend] at hfirst ⊢
        refine ih (done ++ [id]) _ hfirst (by simpa using hsize) ?_
        by_cases hid : id.index < facts.size
        · exact hdone.set (hfirst.of_prefix (List.prefix_append _ _)) hid
        · intro x hx
          beta_reduce
          rw [Array.setIfInBounds_eq_of_size_le (by omega)]
          rcases List.mem_append.1 hx with hx | hx
          · exact hdone x hx
          · obtain rfl : x = id := by simpa using hx
            rw [ofGroup_eq_default (by omega), known, Array.getElem?_eq_none (by omega)]
            rfl
  exact hfold order [] _ (by simpa using h) (by simp) (by intro id hid; cases hid)

/-- What holds of the bounds of all particles, and of those of a member that is not there. -/
theorem occurs_of_particles {c : Components} {P : Occurs → Prop} (honce : P .once)
    (hall : ∀ m ∈ c.particles, P (c.occurs m)) (m : Member) : P (c.occurs m) := by
  cases m with
  | element e =>
      by_cases he : e.index < c.elements.size
      · exact hall _ (by simpa [particles] using ⟨e.index, he, rfl⟩)
      · rw [occurs, element, Array.getElem?_eq_none (Nat.le_of_not_lt he)]
        exact honce
  | wildcard w =>
      by_cases hw : w.index < c.wildcards.size
      · exact hall _ (by simpa [particles] using ⟨w.index, hw, rfl⟩)
      · rw [occurs, wildcard, Array.getElem?_eq_none (Nat.le_of_not_lt hw)]
        exact honce
  | group g =>
      by_cases hg : g.index < c.groups.size
      · exact hall _ (by simpa [particles] using ⟨g.index, hg, rfl⟩)
      · rw [occurs, group, Array.getElem?_eq_none (Nat.le_of_not_lt hg)]
        exact honce

end Conform.Components

namespace Conform.Schema

open Components

/-- A schema that is built from assembled components. -/
def Built (s : Schema) : Prop := ∃ c : Components, c.Assembled ∧ c.build = .ok s

/-- A check of a list passes if it passes every member. -/
theorem forM_ok {α : Type} {f : α → Except Failure Unit} {xs : List α}
    (h : xs.forM f = .ok ()) : ∀ x ∈ xs, f x = .ok () := by
  induction xs with
  | nil => simp
  | cons x rest ih =>
      simp only [List.forM_eq_forM, List.forM_cons, bind, Except.bind] at h
      split at h
      · cases h
      rename_i hx
      intro y hy
      rcases List.mem_cons.1 hy with rfl | hy
      · exact hx
      · exact ih h y hy

/-- What components have passed to become a schema, and what has been worked out for it. -/
structure Builds (c : Components) (s : Schema) : Prop where
  components : s.toComponents = c
  handles : c.checkHandles = .ok ()
  occurs : c.checkOccurs = .ok ()
  allGroups : c.checkAllGroups = .ok ()
  facts : ∃ order, c.groupOrder = .ok order ∧ s.groupFacts = c.facts order
  folded : s.folded = c.foldedOccurs
  rules : ∃ referring, c.resolveReferences = .ok referring ∧
    (referring.mapM fun r => r.1.compile r.2) = .ok s.rules.toList

theorem build_ok {c : Components} {s : Schema} (h : c.build = .ok s) : Builds c s := by
  simp only [build, bind, Except.bind, pure, Except.pure] at h
  split at h
  · cases h
  rename_i hhandles
  split at h
  · cases h
  rename_i hoccurs
  split at h
  · cases h
  rename_i order horder
  split at h
  · cases h
  rename_i hall
  split at h
  · cases h
  rename_i referring hreferring
  split at h
  · cases h
  rename_i rules hrules
  cases h
  exact ⟨rfl, hhandles, hoccurs, hall, ⟨order, horder, rfl⟩, rfl, ⟨referring, hreferring, hrules⟩⟩

namespace Built

variable {s : Schema}

theorem forest (h : s.Built) : s.toComponents.Forest := by
  obtain ⟨c, hc, hbuild⟩ := h
  rw [(build_ok hbuild).components]
  exact hc.forest

/-- The facts about a group follow from those about the groups nested in it. -/
theorem factsOf_eq (h : s.Built) (id : GroupId) :
    s.factsOf id = GroupFacts.ofGroup s.toComponents s.factsOf (s.group id) := by
  obtain ⟨c, -, hbuild⟩ := h
  obtain ⟨rfl, -, -, -, ⟨order, horder, hfacts⟩, -, -⟩ := build_ok hbuild
  obtain ⟨hfirst, hall⟩ := groupOrder_ok horder
  have hknown : s.factsOf = known (s.toComponents.facts order) := by
    funext g
    rw [factsOf, hfacts, known]
  rw [hknown]
  by_cases hid : id.index < s.groups.size
  · exact facts_settled hfirst id (hall id hid)
  · rw [ofGroup_eq_default (by omega), known, Array.getElem?_eq_none (by rw [size_facts]; omega)]
    rfl

/-- A group can be empty if it need not occur, has no members, or its members can be empty: one of
a choice, else all. -/
theorem isEmptiable_group (h : s.Built) (id : GroupId) :
    s.isEmptiable (.group id) = ((s.group id).occurs.isEmptiable || (s.group id).members.isEmpty ||
      match (s.group id).compositor with
      | .choice => (s.group id).members.any s.isEmptiable
      | .sequence | .all => (s.group id).members.all s.isEmptiable) := by
  rw [isEmptiable, h.factsOf_eq]
  simp only [GroupFacts.ofGroup]
  cases (s.group id).compositor with
  | choice =>
      refine congrArg ((s.group id).occurs.isEmptiable || (s.group id).members.isEmpty ||
        (s.group id).members.any ·) (funext fun m => ?_)
      cases m <;> rfl
  | sequence | all =>
      refine congrArg ((s.group id).occurs.isEmptiable || (s.group id).members.isEmpty ||
        (s.group id).members.all ·) (funext fun m => ?_)
      cases m <;> rfl

/-- The leaves of a group are its members, with the leaves of the nested groups that may occur. -/
theorem leaves_eq (h : s.Built) (id : GroupId) :
    s.leaves id = (s.group id).members.flatMap fun
      | .group sub => if (s.group sub).occurs.isEmpty then [] else s.leaves sub
      | m => [m] := by
  rw [leaves, h.factsOf_eq]
  rfl

/-- The bounds of every particle are in order. -/
theorem min_le_max (h : s.Built) (m : Member) : ∀ n ∈ (s.occurs m).max,
    (s.occurs m).min.toNat ≤ n.toNat := by
  obtain ⟨c, -, hbuild⟩ := h
  obtain ⟨rfl, -, hoccurs, -⟩ := build_ok hbuild
  have hall : ∀ m ∈ s.particles, (s.occurs m).isOrdered = true := by
    intro m hm
    have := forM_ok hoccurs m hm
    by_contra hno
    simp [hno] at this
  have hordered : (s.occurs m).isOrdered = true :=
    occurs_of_particles (P := fun o => o.isOrdered = true) rfl hall m
  intro n hn
  rw [Option.mem_def] at hn
  simpa [Occurs.isOrdered, hn, UInt32.le_iff_toNat_le] using hordered

/-- What version 1.0 wants of the groups. -/
theorem allGroupFault?_eq_none (h : s.Built) (hv : s.version = .v10) (id : GroupId) :
    s.allGroupFault? (s.group id) = none := by
  obtain ⟨c, -, hbuild⟩ := h
  obtain ⟨rfl, -, -, hall, -⟩ := build_ok hbuild
  by_cases hid : id.index < s.groups.size
  · simp only [checkAllGroups, hv, reduceCtorEq, if_false] at hall
    have := forM_ok hall id.index (by simpa using hid)
    split at this
    · cases this
    · assumption
  · rw [group, Array.getElem?_eq_none (by omega)]
    rfl

/-- In version 1.0 no `all` group is nested. -/
theorem compositor_ne_all (h : s.Built) (hv : s.version = .v10) {g sub : GroupId}
    (hsub : .group sub ∈ (s.group g).members) : (s.group sub).compositor ≠ .all := by
  intro hall
  have howner : (s.group sub).parent = some g := h.forest.owner hsub
  have hfault := h.allGroupFault?_eq_none hv sub
  simp [allGroupFault?, hall, howner] at hfault

end Built

/-! ## The leaves in a member -/

/-- The leaves in one occurrence of a member. -/
def leavesOnce (s : Schema) : Member → List Member
  | .group g => s.leaves g
  | m => [m]

/-- The leaves in a member. There are none in a group that must not occur. -/
def leavesIn (s : Schema) : Member → List Member
  | .group g => if (s.group g).occurs.isEmpty then [] else s.leaves g
  | m => [m]

variable {s : Schema}

namespace Built

theorem leaves_eq_flatMap (h : s.Built) (g : GroupId) :
    s.leaves g = (s.group g).members.flatMap s.leavesIn := by
  rw [h.leaves_eq]
  refine List.flatMap_congr fun m _ => ?_
  cases m <;> rfl

/-- A leaf of a group is one of its members, or a leaf of a nested group that may occur. -/
theorem leaves_induction (h : s.Built) {m : Member} {motive : GroupId → Prop}
    (leaf : ∀ {g : GroupId}, m ∈ (s.group g).members → m.isGroup = false → motive g)
    (nested : ∀ {g sub : GroupId}, .group sub ∈ (s.group g).members →
      (s.group sub).occurs.max ≠ some 0 → m ∈ s.leaves sub → motive sub → motive g) :
    ∀ {g : GroupId}, m ∈ s.leaves g → motive g := by
  intro g
  induction hg : g.index using Nat.strongRecOn generalizing g with
  | ind i ih =>
      intro hm
      rw [h.leaves_eq_flatMap] at hm
      obtain ⟨x, hx, hin⟩ := List.mem_flatMap.1 hm
      cases x with
      | element e =>
          obtain rfl := List.mem_singleton.1 hin
          exact leaf hx rfl
      | wildcard w =>
          obtain rfl := List.mem_singleton.1 hin
          exact leaf hx rfl
      | group sub =>
          simp only [leavesIn] at hin
          split at hin
          · cases hin
          · rename_i hoccurs
            exact nested hx (fun hmax => hoccurs (decide_eq_true hmax)) hin
              (ih sub.index (hg ▸ h.forest.index_lt hx) rfl hin)

/-- No leaf is a group. -/
theorem isGroup_of_mem_leaves (h : s.Built) {g : GroupId} {m : Member} (hm : m ∈ s.leaves g) :
    m.isGroup = false :=
  h.leaves_induction (fun _ hleaf => hleaf) (fun _ _ _ ih => ih) hm

theorem leavesIn_leaf {m : Member} (hm : m.isGroup = false) : s.leavesIn m = [m] := by
  cases m with
  | group g => cases hm
  | element e => rfl
  | wildcard w => rfl

end Built

end Conform.Schema
