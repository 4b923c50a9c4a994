import Conform.Schema.Assembly
import Conform.Schema.Build
import Mathlib.Tactic.Common
/-!
# Assembled components form a forest

Components are assembled one after the other. A group only takes members that are there and belong
to no group, so every member of a group belongs to it alone, and nested groups come before the group
that holds them.
-/

namespace Conform.Components

/-- Components that are assembled from nothing. The version and the limits can be set at any time. -/
inductive Assembled : Components → Prop
  | empty (v : Version) (l : Limits) : Assembled (empty v l)
  | version {c : Components} (v : Version) : Assembled c → Assembled { c with version := v }
  | limits {c : Components} (l : Limits) : Assembled c → Assembled { c with limits := l }
  | element {c : Components} (d : Declaration) : Assembled c → Assembled (c.addElement d).2
  | globalElement {c : Components} (d : Declaration) :
      Assembled c → Assembled (c.addGlobalElement d).2
  | wildcard {c : Components} (w : Wildcard) : Assembled c → Assembled (c.addWildcard w).2
  | localType {c : Components} (t : TypeDefinition) : Assembled c → Assembled (c.addLocalType t).2
  | type {c : Components} (t : TypeDefinition) : Assembled c → Assembled (c.addType t).2
  | builtin {c : Components} (b : Builtin) : Assembled c → Assembled (c.builtin b).2
  | identity {c : Components} (i : Constraint) : Assembled c → Assembled (c.addIdentity i).2
  | group {c c' : Components} {id : GroupId} (g : Group) (members : List Member) :
      Assembled c → c.addGroup g members = .ok (id, c') → Assembled c'

/-- The groups form a forest. -/
structure Forest (c : Components) : Prop where
  isThere : ∀ {g m}, m ∈ (c.group g).members → c.hasMember m = true
  index_lt : ∀ {g sub : GroupId}, .group sub ∈ (c.group g).members → sub.index < g.index
  owner : ∀ {g m}, m ∈ (c.group g).members → c.parent? m = some g
  nodup : ∀ g, (c.group g).members.Nodup

/-- No group is a member of itself. -/
theorem Forest.ne_of_mem {c : Components} (h : c.Forest) {g sub : GroupId}
    (hsub : .group sub ∈ (c.group g).members) : Member.group g ≠ .group sub := by
  intro heq
  have hlt := h.index_lt hsub
  rw [Member.group.inj heq] at hlt
  omega

/-- Nothing is a member of two groups. -/
theorem Forest.group_unique {c : Components} (h : c.Forest) {g g' : GroupId} {m : Member}
    (hm : m ∈ (c.group g).members) (hm' : m ∈ (c.group g').members) : g' = g :=
  Option.some.inj ((h.owner hm').symm.trans (h.owner hm))

/-- What holds of leaves, and of a group where it holds of the members, holds of all members. -/
theorem Forest.induction {c : Components} (h : c.Forest) {motive : Member → Prop}
    (leaf : ∀ m, m.isGroup = false → motive m)
    (group : ∀ g, (∀ m ∈ (c.group g).members, motive m) → motive (.group g)) : ∀ m, motive m
  | .element _ => leaf _ rfl
  | .wildcard _ => leaf _ rfl
  | .group g => by
    induction hg : g.index using Nat.strongRecOn generalizing g with
    | ind i ih =>
        refine group g fun m hm => ?_
        cases m with
        | element e => exact leaf _ rfl
        | wildcard w => exact leaf _ rfl
        | group sub => exact ih sub.index (hg ▸ h.index_lt hm) sub rfl

theorem group_members_eq_nil {c : Components} {g : GroupId} (h : c.groups.size ≤ g.index) :
    (c.group g).members = [] := by
  rw [group, Array.getElem?_eq_none h]
  rfl

/-- A group with a member is there. -/
theorem index_lt_size {c : Components} {g : GroupId} {m : Member}
    (h : m ∈ (c.group g).members) : g.index < c.groups.size := by
  by_contra hsize
  rw [group_members_eq_nil (by omega)] at h
  exact List.not_mem_nil h

/-- A change that leaves all groups, and the owners of the members that are there. -/
theorem Forest.mono {c c' : Components} (h : c.Forest) (hgroups : c'.groups = c.groups)
    (hparent : ∀ m, c.hasMember m = true → c'.hasMember m = true ∧ c'.parent? m = c.parent? m) :
    c'.Forest := by
  have hgroup : ∀ g, c'.group g = c.group g := fun g => by rw [group, group, hgroups]
  refine ⟨?_, ?_, ?_, ?_⟩
  · intro g m hm
    rw [hgroup] at hm
    exact (hparent m (h.isThere hm)).1
  · intro g sub hm
    rw [hgroup] at hm
    exact h.index_lt hm
  · intro g m hm
    rw [hgroup] at hm
    rw [(hparent m (h.isThere hm)).2]
    exact h.owner hm
  · intro g
    rw [hgroup]
    exact h.nodup g

/-! ## Adding a group -/

/-- What the members of a new group have passed. -/
theorem checkMembers_ok {c : Components} {id : GroupId} {members : List Member} :
    ∀ {seen : List Member}, c.checkMembers id seen members = .ok () →
      (∀ m ∈ members, c.hasMember m = true ∧ m ∉ seen ∧ c.parent? m = none) ∧
        members.Nodup := by
  induction members with
  | nil => simp
  | cons m rest ih =>
      intro seen h
      simp only [checkMembers, checkMember, bind, Except.bind, throw, throwThe,
        MonadExceptOf.throw] at h
      split at h
      · cases h
      rename_i hthere
      have hmember : c.hasMember m = true := by
        by_contra hno
        simp [hno] at hthere
      by_cases hseen : m ∈ seen
      · simp [hseen] at h
      simp only [hseen, if_false] at h
      split at h
      · cases h
      rename_i hfree
      obtain ⟨hall, hnodup⟩ := ih h
      refine ⟨?_, ?_⟩
      · intro m' hm'
        rcases List.mem_cons.1 hm' with rfl | hm'
        · exact ⟨hmember, hseen, hfree⟩
        · obtain ⟨hmem, hnot, hnone⟩ := hall m' hm'
          exact ⟨hmem, fun hin => hnot (List.mem_cons_of_mem _ hin), hnone⟩
      · refine List.nodup_cons.2 ⟨fun hm => ?_, hnodup⟩
        exact (hall m hm).2.1 (List.mem_cons_self ..)

@[simp] theorem hasMember_own (c : Components) (id : GroupId) (m m' : Member) :
    (c.own id m).hasMember m' = c.hasMember m' := by
  cases m <;> cases m' <;> simp only [own, hasMember, Array.size_modify] <;> rfl

@[simp] theorem size_groups_own (c : Components) (id : GroupId) (m : Member) :
    (c.own id m).groups.size = c.groups.size := by
  cases m <;> simp [own]

@[simp] theorem group_members_own (c : Components) (id g : GroupId) (m : Member) :
    ((c.own id m).group g).members = (c.group g).members := by
  cases m with
  | element e => rfl
  | wildcard w => rfl
  | group h =>
      simp only [own, group, Array.getElem?_modify]
      split
      · cases c.groups[g.index]? <;> rfl
      · rfl

theorem parent?_own {c : Components} {id : GroupId} {m m' : Member} (h : c.hasMember m = true) :
    (c.own id m).parent? m' = if m' = m then some id else c.parent? m' := by
  have key : ∀ {α : Type} [Inhabited α] (xs : Array α) (f : α → α) (i j : Nat), i < xs.size →
      (xs.modify i f)[j]?.getD default = if j = i then f (xs[i]?.getD default)
        else xs[j]?.getD default := by
    intro α _ xs f i j hi
    rw [Array.getElem?_modify]
    by_cases hij : i = j
    · subst hij
      simp [hi]
    · simp [hij, Ne.symm hij]
  cases m <;> cases m' <;> simp [own, parent?, hasMember, element, wildcard, group] at h ⊢
  all_goals
    rename_i x y
    rw [key _ _ _ _ h]
    cases x
    cases y
    simp only [Handle.mk.injEq]
    split <;> rfl

/-- Owning some members changes nothing else. -/
theorem foldl_own {g : GroupId} {members : List Member} :
    ∀ {c : Components}, (∀ m ∈ members, c.hasMember m = true) →
      (∀ m, (members.foldl (fun d m => d.own g m) c).hasMember m = c.hasMember m) ∧
      (members.foldl (fun d m => d.own g m) c).groups.size = c.groups.size ∧
      (∀ x, ((members.foldl (fun d m => d.own g m) c).group x).members = (c.group x).members) ∧
      ∀ m, (members.foldl (fun d m => d.own g m) c).parent? m =
        if m ∈ members then some g else c.parent? m := by
  induction members with
  | nil => simp
  | cons m rest ih =>
      intro c h
      have hm : c.hasMember m = true := h m (List.mem_cons_self ..)
      obtain ⟨hhas, hsize, hmembers, hparent⟩ := ih (c := c.own g m) (fun m' hm' => by
        rw [hasMember_own]
        exact h m' (List.mem_cons_of_mem _ hm'))
      simp only [List.foldl_cons]
      refine ⟨?_, ?_, ?_, ?_⟩
      · intro m'
        rw [hhas, hasMember_own]
      · rw [hsize, size_groups_own]
      · intro x
        rw [hmembers, group_members_own]
      · intro m'
        rw [hparent, parent?_own hm]
        by_cases hrest : m' ∈ rest <;> by_cases heq : m' = m <;> simp [hrest, heq]

/-- The components with one more group, which owns its members. -/
def gather (c : Components) (g : Group) (members : List Member) : Components :=
  let owned := members.foldl (fun d m => d.own ⟨c.groups.size⟩ m) c
  { owned with groups := owned.groups.push { g with members, parent := none } }

theorem run_own (id : GroupId) : ∀ (members : List Member) (c : Components),
    (members.forM fun m => modify fun d => d.own id m : EStateM Failure Components Unit).run c =
      .ok () (members.foldl (fun d m => d.own id m) c)
  | [], _ => rfl
  | m :: rest, c => run_own id rest (c.own id m)

/-- Nothing is changed unless all members pass, and nothing fails once they have. -/
theorem run_takeGroup (c : Components) (g : Group) (members : List Member) :
    (takeGroup g members).run c =
      match c.checkMembers ⟨c.groups.size⟩ [] members with
      | .error failure => .error failure c
      | .ok () => .ok ⟨c.groups.size⟩ (c.gather g members) := by
  show (match c.checkMembers ⟨c.groups.size⟩ [] members with
    | .error _ => _
    | .ok () => _ : EStateM Failure Components GroupId) c = _
  cases c.checkMembers ⟨c.groups.size⟩ [] members with
  | error failure => rfl
  | ok =>
      have howned := run_own ⟨c.groups.size⟩ members c
      simp only [EStateM.run] at howned
      simp only [bind, EStateM.bind, howned]
      rfl

theorem addGroup_eq_ok {c c' : Components} {id : GroupId} {g : Group} {members : List Member}
    (h : c.addGroup g members = .ok (id, c')) :
    c.checkMembers ⟨c.groups.size⟩ [] members = .ok () ∧ id = ⟨c.groups.size⟩ ∧
      c' = c.gather g members := by
  unfold addGroup at h
  rw [run_takeGroup] at h
  cases hcheck : c.checkMembers ⟨c.groups.size⟩ [] members with
  | error failure => rw [hcheck] at h; cases h
  | ok =>
      rw [hcheck] at h
      cases h
      exact ⟨rfl, rfl, rfl⟩

/-- What a new group changes. -/
theorem addGroup_ok {c c' : Components} {id : GroupId} {g : Group} {members : List Member}
    (h : c.addGroup g members = .ok (id, c')) :
    (∀ m ∈ members, c.hasMember m = true ∧ c.parent? m = none) ∧ members.Nodup ∧
      id = ⟨c.groups.size⟩ ∧ (∀ m, c.hasMember m = true → c'.hasMember m = true) ∧
      (∀ x, (c'.group x).members = if x = id then members else (c.group x).members) ∧
      ∀ m, c.hasMember m = true →
        c'.parent? m = if m ∈ members then some id else c.parent? m := by
  obtain ⟨hcheck, rfl, rfl⟩ := addGroup_eq_ok h
  obtain ⟨hall, hnodup⟩ := checkMembers_ok hcheck
  obtain ⟨hhas, hsize, hmembers, hparent⟩ :=
    foldl_own (g := ⟨c.groups.size⟩) (c := c) (fun m hm => (hall m hm).1)
  unfold gather
  dsimp only
  set owned := members.foldl (fun d m => d.own ⟨c.groups.size⟩ m) c
  have hold : ∀ x : GroupId, x ≠ ⟨c.groups.size⟩ →
      (owned.groups.push { g with members, parent := none })[x.index]? =
        owned.groups[x.index]? := by
    intro x hx
    rw [Array.getElem?_push, if_neg]
    rintro heq
    exact hx (by cases x; simp_all)
  refine ⟨fun m hm => ⟨(hall m hm).1, (hall m hm).2.2⟩, hnodup, rfl, ?_, ?_, ?_⟩
  · intro m hm
    rw [← hhas] at hm
    cases m with
    | element e => exact hm
    | wildcard w => exact hm
    | group x =>
        simp only [hasMember, Array.size_push, decide_eq_true_eq] at hm ⊢
        omega
  · intro x
    by_cases hx : x = ⟨c.groups.size⟩
    · subst hx
      rw [if_pos rfl, group, ← hsize]
      simp
    · rw [if_neg hx, ← hmembers x, group, group, hold x hx]
  · intro m hm
    rw [← hparent]
    cases m with
    | element e => rfl
    | wildcard w => rfl
    | group x =>
        have hx : x ≠ ⟨c.groups.size⟩ := by
          rintro rfl
          simp [hasMember] at hm
        simp only [parent?, group]
        rw [hold x hx]

theorem Forest.addGroup {c c' : Components} {id : GroupId} {g : Group} {members : List Member}
    (h : c.Forest) (hadd : c.addGroup g members = .ok (id, c')) : c'.Forest := by
  obtain ⟨hfree, hnodup, rfl, hhas, hmembers, hparent⟩ := addGroup_ok hadd
  have hcases : ∀ {x m}, m ∈ (c'.group x).members →
      (x = ⟨c.groups.size⟩ ∧ m ∈ members) ∨ (x ≠ ⟨c.groups.size⟩ ∧ m ∈ (c.group x).members) := by
    intro x m hm
    rw [hmembers] at hm
    split at hm
    · rename_i hx
      exact .inl ⟨hx, hm⟩
    · rename_i hx
      exact .inr ⟨hx, hm⟩
  refine ⟨?_, ?_, ?_, ?_⟩
  · intro x m hm
    rcases hcases hm with ⟨-, hm⟩ | ⟨-, hm⟩
    · exact hhas m (hfree m hm).1
    · exact hhas m (h.isThere hm)
  · intro x sub hm
    rcases hcases hm with ⟨rfl, hin⟩ | ⟨-, hm⟩
    · simpa [hasMember] using (hfree _ hin).1
    · exact h.index_lt hm
  · intro x m hm
    rcases hcases hm with ⟨rfl, hin⟩ | ⟨-, hm⟩
    · rw [hparent m (hfree m hin).1, if_pos hin]
    · have hnot : m ∉ members := by
        intro hin
        have := h.owner hm
        rw [(hfree m hin).2] at this
        cases this
      rw [hparent m (h.isThere hm), if_neg hnot]
      exact h.owner hm
  · intro x
    rw [hmembers]
    split
    · exact hnodup
    · exact h.nodup x

/-! ## Assembled components -/

theorem Forest.addElement {c : Components} (h : c.Forest) (d : Declaration) :
    (c.addElement d).2.Forest := by
  refine h.mono rfl ?_
  intro m hm
  cases m with
  | element e =>
      simp only [hasMember, decide_eq_true_eq] at hm
      refine ⟨?_, ?_⟩
      · simp only [Components.addElement, hasMember, Array.size_push, decide_eq_true_eq]
        omega
      · simp only [Components.addElement, parent?, element, Array.getElem?_push]
        rw [if_neg (by omega)]
  | wildcard w => exact ⟨hm, rfl⟩
  | group x => exact ⟨hm, rfl⟩

theorem Forest.addWildcard {c : Components} (h : c.Forest) (w : Wildcard) :
    (c.addWildcard w).2.Forest := by
  refine h.mono rfl ?_
  intro m hm
  cases m with
  | element e => exact ⟨hm, rfl⟩
  | wildcard x =>
      simp only [hasMember, decide_eq_true_eq] at hm
      refine ⟨?_, ?_⟩
      · simp only [Components.addWildcard, hasMember, Array.size_push, decide_eq_true_eq]
        omega
      · simp only [Components.addWildcard, parent?, wildcard, Array.getElem?_push]
        rw [if_neg (by omega)]
  | group x => exact ⟨hm, rfl⟩

/-- A change that touches no particle. -/
theorem Forest.congr {c c' : Components} (h : c.Forest) (helements : c'.elements = c.elements)
    (hwildcards : c'.wildcards = c.wildcards) (hgroups : c'.groups = c.groups) : c'.Forest := by
  refine h.mono hgroups ?_
  intro m hm
  cases m <;>
    simp_all only [Components.hasMember, parent?, element, wildcard, group, and_self]

theorem Assembled.forest {c : Components} (h : c.Assembled) : c.Forest := by
  induction h with
  | empty v l =>
      have hnil : ∀ g, ((Components.empty v l).group g).members = [] := fun g => rfl
      constructor <;> simp [hnil]
  | version v _ ih => exact ih.congr rfl rfl rfl
  | limits l _ ih => exact ih.congr rfl rfl rfl
  | element d _ ih => exact ih.addElement d
  | globalElement d _ ih => exact (ih.addElement _).congr rfl rfl rfl
  | wildcard w _ ih => exact ih.addWildcard w
  | localType t _ ih => exact ih.congr rfl rfl rfl
  | type t _ ih =>
      refine ih.congr ?_ ?_ ?_ <;> simp only [addType] <;> split <;> rfl
  | builtin b _ ih =>
      simp only [Components.builtin]
      split
      · exact ih
      · refine ih.congr ?_ ?_ ?_ <;> simp only [addType] <;> split <;> rfl
  | identity i _ ih => exact ih.congr rfl rfl rfl
  | group g members _ hadd ih => exact ih.addGroup hadd

end Conform.Components
