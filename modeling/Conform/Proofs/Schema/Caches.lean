import Conform.Proofs.Model.Sizes
import Conform.Proofs.Schema.Ancestry
import Conform.Proofs.Schema.Order
/-!
# What is worked out once

The facts about a group are worked out one level at a time, from those about the groups in it, and
kept. Here they are compared with recursive functions on the tree of all that stands in the group,
which know nothing of an order or of what is kept. The folded bounds of a particle are compared with
the product along the whole row of the groups around it.
-/

namespace Conform

/-- All that stands in a particle. -/
inductive GroupTree where
  | leaf (m : Member) (occurs : Occurs)
  | node (g : Group) (parts : List GroupTree)

namespace GroupTree

variable {α : Type} (leaf : Member → Occurs → α) (node : Group → List α → α)

mutual

/-- A value for the tree, from those of its parts. -/
def fold : GroupTree → α
  | .leaf m o => leaf m o
  | .node g parts => node g (foldAll parts)

def foldAll : List GroupTree → List α
  | [] => []
  | t :: rest => fold t :: foldAll rest

end

theorem foldAll_eq_map : ∀ parts, foldAll leaf node parts = parts.map (fold leaf node)
  | [] => rfl
  | t :: rest => by rw [foldAll, foldAll_eq_map rest, List.map_cons]

/-- How many elements the content has. -/
def size : GroupTree → Occurs := fold (fun _ o => o) GroupFacts.sizeOf

/-- No content at all is enough. -/
def isEmptiable : GroupTree → Bool :=
  fold (fun _ o => o.isEmptiable) fun g parts =>
    g.occurs.isEmptiable || parts.isEmpty ||
      match g.compositor with
      | .choice => parts.any id
      | .sequence | .all => parts.all id

/-- The elements and wildcards, none if the particle must not occur. -/
def leavesIn : GroupTree → List Member :=
  fold (fun m _ => [m]) fun g parts => if g.occurs.isEmpty then [] else parts.flatten

/-- The elements and wildcards in one occurrence. -/
def leaves : GroupTree → List Member
  | .leaf m _ => [m]
  | .node _ parts => parts.flatMap leavesIn

end GroupTree

namespace Components

variable {c : Components} {g : GroupId} {m : Member} {t t' : GroupTree}

/-- The tree of a particle has all members of its groups, down to the leaves. -/
inductive Unfolds (c : Components) : Member → GroupTree → Prop
  | leaf {m : Member} : m.isGroup = false → Unfolds c m (.leaf m (c.occurs m))
  | node {g : GroupId} {parts : List GroupTree} :
      List.Forall₂ (Unfolds c) (c.group g).members parts →
      Unfolds c (.group g) (.node (c.group g) parts)

/-! ## Related lists -/

section Related

variable {α β γ : Type} {R : α → β → Prop} {xs : List α} {ys ys' : List β}

theorem exists_forall₂ (h : ∀ x ∈ xs, ∃ y, R x y) : ∃ ys, List.Forall₂ R xs ys := by
  induction xs with
  | nil => exact ⟨[], .nil⟩
  | cons x xs ih =>
      obtain ⟨y, hy⟩ := h x List.mem_cons_self
      obtain ⟨ys, hys⟩ := ih fun x' hx' => h x' (List.mem_cons_of_mem _ hx')
      exact ⟨y :: ys, .cons hy hys⟩

theorem forall₂_unique (hunique : ∀ x ∈ xs, ∀ y y', R x y → R x y' → y' = y)
    (h : List.Forall₂ R xs ys) (h' : List.Forall₂ R xs ys') : ys' = ys := by
  induction h generalizing ys' with
  | nil =>
      cases h'
      rfl
  | @cons x y xs ys hy _ ih =>
      cases h' with
      | @cons _ y' _ ys' hy' hrest =>
          have hhead : y' = y := hunique x List.mem_cons_self y y' hy hy'
          have htail : ys' = ys := ih (fun x' hx' => hunique x' (List.mem_cons_of_mem _ hx')) hrest
          rw [hhead, htail]

theorem map_eq_of_forall₂ {f : α → γ} {f' : β → γ} (heq : ∀ x ∈ xs, ∀ y, R x y → f x = f' y)
    (h : List.Forall₂ R xs ys) : xs.map f = ys.map f' := by
  induction h with
  | nil => rfl
  | @cons x y xs ys hy _ ih =>
      rw [List.map_cons, List.map_cons, heq x List.mem_cons_self y hy,
        ih fun x' hx' => heq x' (List.mem_cons_of_mem _ hx')]

end Related

/-! ## The tree of a particle -/

/-- Every particle has a tree: no group contains itself. -/
theorem Forest.exists_unfolds (hc : c.Forest) (m : Member) : ∃ t, c.Unfolds m t := by
  induction m using hc.induction with
  | leaf m hm => exact ⟨_, .leaf hm⟩
  | group g ih =>
      obtain ⟨parts, hparts⟩ := exists_forall₂ ih
      exact ⟨_, .node hparts⟩

theorem Forest.unfolds_unique (hc : c.Forest) (h : c.Unfolds m t) (h' : c.Unfolds m t') :
    t' = t := by
  induction m using hc.induction generalizing t t' with
  | leaf m hm =>
      cases h with
      | leaf _ => cases h' with
        | leaf _ => rfl
        | node _ => cases hm
      | node _ => cases hm
  | group g ih =>
      cases h with
      | leaf hm => cases hm
      | node hparts => cases h' with
        | leaf hm => cases hm
        | node hparts' =>
            apply congrArg (GroupTree.node _)
            exact forall₂_unique (fun m hm t t' => ih m hm) hparts hparts'

/-- A value that a particle has because of those of its members is the value of its tree. -/
theorem Forest.fold_eq (hc : c.Forest) {α : Type} {leaf : Member → Occurs → α}
    {node : Group → List α → α} (value : Member → α)
    (hleaf : ∀ m, m.isGroup = false → value m = leaf m (c.occurs m))
    (hnode : ∀ g, value (.group g) = node (c.group g) ((c.group g).members.map value))
    (h : c.Unfolds m t) : value m = t.fold leaf node := by
  induction m using hc.induction generalizing t with
  | leaf m hm =>
      cases h with
      | leaf _ => exact hleaf m hm
      | node _ => cases hm
  | group g ih =>
      cases h with
      | leaf hm => cases hm
      | @node _ parts hparts =>
          have hall : (c.group g).members.map value = parts.map (GroupTree.fold leaf node) :=
            map_eq_of_forall₂ (fun m hm t => ih m hm) hparts
          rw [hnode, hall, GroupTree.fold, GroupTree.foldAll_eq_map]

/-! ## The groups around a particle -/

/-- The owner of a particle, the owner of that group, and so on up to a group without owner. -/
inductive Owners (c : Components) : Option GroupId → List GroupId → Prop
  | top : Owners c none []
  | up {g : GroupId} {gs : List GroupId} : Owners c (c.group g).parent gs → Owners c (some g) (g :: gs)

variable {start : Option GroupId} {gs gs' : List GroupId}

theorem Owners.unique (h : c.Owners start gs) (h' : c.Owners start gs') : gs' = gs := by
  induction h generalizing gs' with
  | top =>
      cases h'
      rfl
  | up _ ih => cases h' with
    | up hrest => rw [ih hrest]

theorem group_addType (c : Components) (type : TypeDefinition) (g : GroupId) :
    (c.addType type).2.group g = c.group g := by
  simp only [addType]
  split <;> rfl

theorem group_builtin (c : Components) (b : Builtin) (g : GroupId) :
    (c.builtin b).2.group g = c.group g := by
  simp only [builtin]
  split
  · rfl
  · exact group_addType ..

/-- The owner of a group has the group as a member. -/
theorem Assembled.mem_of_parent (h : c.Assembled) {sub : GroupId} (g : GroupId)
    (howner : (c.group sub).parent = some g) : .group sub ∈ (c.group g).members := by
  induction h generalizing g with
  | empty v l => cases howner
  | version v _ ih => exact ih g howner
  | limits l _ ih => exact ih g howner
  | element d _ ih => exact ih g howner
  | globalElement d _ ih => exact ih g howner
  | wildcard w _ ih => exact ih g howner
  | localType type _ ih => exact ih g howner
  | identity i _ ih => exact ih g howner
  | type type _ ih =>
      rw [group_addType] at howner ⊢
      exact ih g howner
  | builtin b _ ih =>
      rw [group_builtin] at howner ⊢
      exact ih g howner
  | group _ _ _ hadd ih =>
      exact mem_of_parent?_addGroup (m := .group sub) hadd (fun {x} => ih x) howner

/-- From every group the owners come to an end, after no more groups than there are. -/
theorem Assembled.exists_owners (h : c.Assembled) (start : Option GroupId) :
    ∃ gs, c.Owners start gs ∧ gs.length ≤ c.groups.size + 1 := by
  have hup : ∀ room (g : GroupId), c.groups.size ≤ g.index + room →
      ∃ gs, c.Owners (some g) gs ∧ gs.length ≤ room + 1 := by
    intro room
    induction room with
    | zero =>
        intro g hg
        have hparent : (c.group g).parent = none := by
          rw [Components.group, Array.getElem?_eq_none (show c.groups.size ≤ g.index from hg)]
          rfl
        exact ⟨[g], .up (hparent ▸ .top), Nat.le_refl _⟩
    | succ room ih =>
        intro g hg
        cases hparent : (c.group g).parent with
        | none => exact ⟨[g], .up (hparent ▸ .top), Nat.le_add_left ..⟩
        | some owner =>
            have hlt : g.index < owner.index := h.forest.index_lt (h.mem_of_parent owner hparent)
            obtain ⟨gs, hgs, hlength⟩ := ih owner (by omega)
            exact ⟨g :: gs, .up (hparent ▸ hgs), Nat.succ_le_succ hlength⟩
  cases start with
  | none => exact ⟨[], .top, Nat.zero_le _⟩
  | some g => exact hup c.groups.size g (Nat.le_add_left ..)

theorem foldFrom_of_owners (h : c.Owners start gs) : ∀ {fuel : Nat} (o : Occurs),
    gs.length ≤ fuel → c.foldFrom fuel start o = gs.foldl (fun o g => c.around g o) o := by
  induction h with
  | top =>
      intro fuel o _
      cases fuel <;> rfl
  | @up g gs _ ih =>
      intro fuel o hlength
      cases fuel with
      | zero => cases hlength
      | succ fuel =>
          rw [List.foldl_cons, ← ih (c.around g o) (Nat.le_of_succ_le_succ hlength)]
          rfl

/-- The product of the bounds of a particle and of some groups around it. In a choice with
alternatives the particle need not occur. -/
def productAround (c : Components) (gs : List GroupId) (o : Occurs) : Occurs :=
  let product := gs.foldl (fun o g => o.multiply (c.group g).occurs) o
  if gs.any c.isAlternative then { product with min := 0 } else product

theorem optional_multiply (o o' : Occurs) :
    Occurs.multiply { o with min := 0 } o' = { o.multiply o' with min := 0 } :=
  congrArg (Occurs.mk · _) (satMul_eq_zero_iff.2 (.inl rfl))

theorem productAround_optional (gs : List GroupId) (o : Occurs) :
    c.productAround gs { o with min := 0 } = { c.productAround gs o with min := 0 } := by
  have hfold : ∀ o : Occurs,
      gs.foldl (fun o g => o.multiply (c.group g).occurs) { o with min := 0 } =
        { gs.foldl (fun o g => o.multiply (c.group g).occurs) o with min := 0 } := by
    induction gs with
    | nil => exact fun _ => rfl
    | cons g gs ih =>
        intro o
        rw [List.foldl_cons, optional_multiply, ih, List.foldl_cons]
  unfold productAround
  rw [hfold]
  cases gs.any c.isAlternative <;> rfl

/-- Folding group by group is the product along the whole row. -/
theorem foldl_around (gs : List GroupId) (o : Occurs) :
    gs.foldl (fun o g => c.around g o) o = c.productAround gs o := by
  induction gs generalizing o with
  | nil => rfl
  | cons g gs ih =>
      rw [List.foldl_cons, ih, around]
      cases hg : c.isAlternative g with
      | false => simp [productAround, hg]
      | true =>
          rw [if_pos rfl, optional_multiply, productAround_optional]
          simp only [productAround, List.foldl_cons, List.any_cons, hg, Bool.true_or, if_true]
          split <;> rfl

/-- The folded bounds are the product along all groups around the particle. -/
theorem Assembled.foldOccurs_eq (h : c.Assembled) {gs : List GroupId}
    (hgs : c.Owners (c.parent? m) gs) : c.foldOccurs m = c.productAround gs (c.occurs m) := by
  obtain ⟨gs', hgs', hlength⟩ := h.exists_owners (c.parent? m)
  obtain rfl := hgs'.unique hgs
  rw [foldOccurs, foldFrom_of_owners hgs _ hlength, foldl_around]

end Components

namespace Schema

open Components

variable {s : Schema} {g : GroupId} {t : GroupTree}

namespace Built

theorem size_eq_tree (hs : s.Built) (h : s.Unfolds (.group g) t) : (s.factsOf g).size = t.size := by
  apply hs.forest.fold_eq s.sizeIn ?_ ?_ h
  · exact fun m hm => sizeIn_leaf hm
  · intro g
    exact congrArg GroupFacts.size (hs.factsOf_eq g)

theorem isEmptiable_eq_tree (hs : s.Built) (h : s.Unfolds (.group g) t) :
    (s.factsOf g).isEmptiable = t.isEmptiable := by
  apply hs.forest.fold_eq s.isEmptiable ?_ ?_ h
  · intro m hm
    cases m with
    | group g => cases hm
    | element e => rfl
    | wildcard w => rfl
  · intro g
    rw [hs.isEmptiable_group]
    simp only [List.any_map, List.all_map, List.isEmpty_map]
    rfl

theorem leavesIn_eq_tree (hs : s.Built) {m : Member} (h : s.Unfolds m t) :
    s.leavesIn m = t.leavesIn := by
  apply hs.forest.fold_eq s.leavesIn ?_ ?_ h
  · exact fun m hm => leavesIn_leaf hm
  · intro g
    rw [leavesIn, hs.leaves_eq_flatMap, List.flatMap_def]

theorem leaves_eq_tree (hs : s.Built) (h : s.Unfolds (.group g) t) : s.leaves g = t.leaves := by
  cases h with
  | leaf hm => cases hm
  | node hparts =>
      rw [hs.leaves_eq_flatMap, GroupTree.leaves, List.flatMap_def, List.flatMap_def]
      exact congrArg List.flatten (map_eq_of_forall₂ (fun m _ t => hs.leavesIn_eq_tree) hparts)

end Built

/-- A build works out everything once and for all. The groups are in an order that has each of them
once and after everything in it; what is kept about a group is what the recursive functions say of
its tree; and what is kept for a particle, just if it has an owner, is the product along the whole
row of the groups around it. -/
theorem build_caches {c : Components} (hc : c.Assembled) (hs : c.build = .ok s) :
    (∃ order, c.groupOrder = .ok order ∧ order.Nodup ∧
      (∀ id : GroupId, id ∈ order ↔ id.index < c.groups.size) ∧
      ∀ before g after, order = before ++ g :: after →
        ∀ sub, Relation.TransGen c.IsNestedIn sub g → sub ∈ before) ∧
    (∀ g : GroupId, ∃ t, c.Unfolds (.group g) t ∧ (∀ t', c.Unfolds (.group g) t' → t' = t) ∧
      s.leaves g = t.leaves ∧ s.isEmptiable (.group g) = t.isEmptiable ∧
      (s.factsOf g).size = t.size) ∧
    ∀ m, ∃ gs, c.Owners (c.parent? m) gs ∧ (∀ gs', c.Owners (c.parent? m) gs' → gs' = gs) ∧
      s.folded.get? m =
        if (c.parent? m).isSome then some (c.productAround gs (c.occurs m)) else none := by
  have hbuilt : s.Built := ⟨c, hc, hs⟩
  obtain ⟨rfl, -, -, -, ⟨order, horder, -⟩, hfolded, -⟩ := build_ok hs
  refine ⟨⟨order, horder, ?_⟩, fun g => ?_, fun m => ?_⟩
  · obtain ⟨hnodup, hall⟩ := hc.forest.groupOrder_exact horder
    refine ⟨hnodup, hall, ?_⟩
    rintro before g after rfl sub hsub
    exact (groupOrder_ok horder).1.mem_of_transGen hsub
  · obtain ⟨t, ht⟩ := hc.forest.exists_unfolds (.group g)
    exact ⟨t, ht, fun t' => hc.forest.unfolds_unique ht, hbuilt.leaves_eq_tree ht,
      hbuilt.isEmptiable_eq_tree ht, hbuilt.size_eq_tree ht⟩
  · obtain ⟨gs, hgs, -⟩ := hc.exists_owners (s.parent? m)
    refine ⟨gs, hgs, fun gs' => hgs.unique, ?_⟩
    rw [hfolded, get?_foldedOccurs, hc.foldOccurs_eq hgs]

/-- A choice in a repeated sequence in another sequence. -/
def cachesSample : Components :=
  (((withElements .v10 [("a", ⟨1, some 2⟩), ("b", .once), ("c", .once)]).withGroup .choice ⟨2, some 3⟩
    [.element ⟨0⟩, .element ⟨1⟩]).withGroup .sequence ⟨1, none⟩
    [.group ⟨0⟩, .element ⟨2⟩]).withGroup .sequence .once [.group ⟨1⟩]

theorem build_caches_sample : cachesSample.Assembled ∧
    cachesSample.build = .ok cachesSample.schema ∧
    (∃ order, cachesSample.groupOrder = .ok order ∧ order.Nodup ∧ ⟨1⟩ ∈ order) ∧
    (∃ t, cachesSample.Unfolds (.group ⟨2⟩) t ∧ t.isEmptiable = false ∧
      t.leaves = [.element ⟨0⟩, .element ⟨1⟩, .element ⟨2⟩]) ∧
    cachesSample.Owners (some ⟨0⟩) [⟨0⟩, ⟨1⟩, ⟨2⟩] ∧
    cachesSample.schema.folded.get? (.element ⟨0⟩) = some ⟨0, none⟩ := by
  have hassembled : cachesSample.Assembled :=
    (((assembled_withElements ..).withGroup ..).withGroup ..).withGroup ..
  have hbuild : cachesSample.build = .ok cachesSample.schema := build_schema rfl
  obtain ⟨⟨order, horder, hnodup, hmem, -⟩, hfacts, hfolded⟩ := build_caches hassembled hbuild
  obtain ⟨t, ht, -, hleaves, hemptiable, -⟩ := hfacts ⟨2⟩
  have howner : cachesSample.parent? (.element ⟨0⟩) = some ⟨0⟩ := by decide +kernel
  have hparents : (cachesSample.group ⟨0⟩).parent = some ⟨1⟩ ∧
      (cachesSample.group ⟨1⟩).parent = some ⟨2⟩ ∧ (cachesSample.group ⟨2⟩).parent = none := by
    decide +kernel
  have howners : cachesSample.Owners (some ⟨0⟩) [⟨0⟩, ⟨1⟩, ⟨2⟩] :=
    .up (hparents.1 ▸ .up (hparents.2.1 ▸ .up (hparents.2.2 ▸ .top)))
  obtain ⟨gs, -, hunique, hvalue⟩ := hfolded (.element ⟨0⟩)
  rw [howner] at hunique hvalue
  refine ⟨hassembled, hbuild, ⟨order, horder, hnodup, (hmem ⟨1⟩).2 (by decide +kernel)⟩,
    ⟨t, ht, hemptiable.symm.trans (by decide +kernel), hleaves.symm.trans (by decide +kernel)⟩,
    howners, hvalue.trans ?_⟩
  rw [← hunique _ howners]
  decide +kernel

end Schema

end Conform
