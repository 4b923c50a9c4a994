import Conform.Proofs.Listing
import Conform.Proofs.Schema.Rules
/-!
# Handles of a built schema

A schema is only built if every handle that its components store has its component, and names are
only given to components that are there. So no handle that is found in a schema leads out of it.
-/

namespace Conform

/-- The sort of the component that a member stands for. -/
def Member.sort : Member → Component
  | .element _ => .element
  | .wildcard _ => .wildcard
  | .group _ => .group

/-- The handle that a member is. -/
def Member.handle : (m : Member) → Handle m.sort
  | .element id => id
  | .wildcard id => id
  | .group id => id

namespace Components

/-- The number of components of a sort. -/
def size (c : Components) : Component → Nat
  | .element => c.elements.size
  | .group => c.groups.size
  | .wildcard => c.wildcards.size
  | .type => c.types.size
  | .identity => c.identities.size

/-- There is a component at a handle. -/
def Stores (c : Components) {sort : Component} (h : Handle sort) : Prop := h.index < c.size sort

variable {c c' : Components}

theorem stores_handle {m : Member} : c.Stores m.handle ↔ c.hasMember m = true := by
  cases m <;> simp [Stores, hasMember, size, Member.handle, Member.sort]

/-! ## Names -/

/-- What has a name is there. -/
structure NamesKnown (c : Components) : Prop where
  element : ∀ {n id}, c.elementNamed? n = some id → c.Stores id
  type : ∀ {n id}, c.typeNamed? n = some id → c.Stores id
  identity : ∀ {n id}, c.identityNamed? n = some id → c.Stores id

/-- Components only become more, and a name that is new belongs to one of them. -/
theorem NamesKnown.grow (h : c.NamesKnown) (hsize : ∀ sort, c.size sort ≤ c'.size sort)
    (helement : ∀ {n id}, c'.elementNamed? n = some id → c.elementNamed? n = some id ∨ c'.Stores id)
    (htype : ∀ {n id}, c'.typeNamed? n = some id → c.typeNamed? n = some id ∨ c'.Stores id)
    (hidentity : ∀ {n id}, c'.identityNamed? n = some id →
      c.identityNamed? n = some id ∨ c'.Stores id) : c'.NamesKnown where
  element hn := (helement hn).elim (fun hn => Nat.lt_of_lt_of_le (h.element hn) (hsize _)) id
  type hn := (htype hn).elim (fun hn => Nat.lt_of_lt_of_le (h.type hn) (hsize _)) id
  identity hn := (hidentity hn).elim (fun hn => Nat.lt_of_lt_of_le (h.identity hn) (hsize _)) id

theorem size_own (c : Components) (id : GroupId) (m : Member) (sort : Component) :
    (c.own id m).size sort = c.size sort := by
  cases m <;> cases sort <;> simp [own, size]

/-- A new group has no name, and what it owns keeps its own. -/
theorem NamesKnown.addGroup (h : c.NamesKnown) {id : GroupId} {g : Group} {members : List Member}
    (hadd : c.addGroup g members = .ok (id, c')) : c'.NamesKnown := by
  have hfold : ∀ (members : List Member) (c : Components) (id : GroupId), c.NamesKnown →
      (members.foldl (fun c m => c.own id m) c).NamesKnown := by
    intro members
    induction members with
    | nil => exact fun _ _ h => h
    | cons m members ih =>
        intro c id h
        refine ih _ id (h.grow (fun sort => Nat.le_of_eq (size_own c id m sort).symm) ?_ ?_ ?_) <;>
          cases m <;> exact .inl
  obtain ⟨-, -, rfl⟩ := addGroup_eq_ok hadd
  refine (hfold members c ⟨c.groups.size⟩ h).grow (fun sort => ?_) .inl .inl .inl
  cases sort <;> simp [gather, size]

theorem Assembled.namesKnown (h : c.Assembled) : c.NamesKnown := by
  have hlocal : ∀ {c : Components} (t : TypeDefinition), c.NamesKnown →
      (c.addLocalType t).2.NamesKnown := fun t h =>
    h.grow (fun sort => by cases sort <;> simp [addLocalType, size]) .inl .inl .inl
  have htype : ∀ {c : Components} (t : TypeDefinition), c.NamesKnown →
      (c.addType t).2.NamesKnown := by
    intro c t h
    unfold addType
    dsimp only
    split
    · refine (hlocal t h).grow (fun sort => by cases sort <;> exact Nat.le_refl _) .inl
        (fun hn => ?_) .inl
      refine (Listing.get?_insert_cases hn).imp_right ?_
      rintro rfl
      simp [Stores, addLocalType, size]
    · exact hlocal t h
  have helement : ∀ {c : Components} (d : Declaration), c.NamesKnown →
      (c.addElement d).2.NamesKnown := fun d h =>
    h.grow (fun sort => by cases sort <;> simp [addElement, size]) .inl .inl .inl
  induction h with
  | empty => constructor <;> exact fun h => by cases h
  | version _ _ ih =>
      exact ih.grow (fun sort => by cases sort <;> exact Nat.le_refl _) .inl .inl .inl
  | limits _ _ ih =>
      exact ih.grow (fun sort => by cases sort <;> exact Nat.le_refl _) .inl .inl .inl
  | element d _ ih => exact helement d ih
  | globalElement d _ ih =>
      refine (helement _ ih).grow (fun sort => by cases sort <;> exact Nat.le_refl _) (fun hn => ?_)
        .inl .inl
      refine (Listing.get?_insert_cases hn).imp_right ?_
      rintro rfl
      simp [Stores, addElement, addGlobalElement, size]
  | wildcard w _ ih =>
      exact ih.grow (fun sort => by cases sort <;> simp [addWildcard, size]) .inl .inl .inl
  | localType t _ ih => exact hlocal t ih
  | type t _ ih => exact htype t ih
  | builtin b _ ih =>
      unfold Components.builtin
      split
      · exact ih
      · exact htype _ ih
  | identity i _ ih =>
      refine ih.grow (fun sort => by cases sort <;> simp [addIdentity, size]) .inl .inl
        (fun hn => ?_)
      refine (Listing.get?_insert_cases hn).imp_right ?_
      rintro rfl
      simp [Stores, addIdentity, size]
  | group g members _ hadd ih => exact ih.addGroup hadd

/-! ## Stored handles -/

theorem checkType_ok {id : TypeId} (h : c.checkType id = .ok ()) : c.Stores id := by
  unfold checkType at h
  split at h
  · assumption
  · cases h

theorem checkIdentity_ok {id : IdentityId} (h : c.checkIdentity id = .ok ()) : c.Stores id := by
  unfold checkIdentity at h
  split at h
  · assumption
  · cases h

/-- What a declaration refers to is there. -/
structure DeclarationKnown (c : Components) (d : Declaration) : Prop where
  type : c.Stores d.type
  alternatives : ∀ a ∈ d.alternatives, c.Stores a.type
  identities : ∀ i ∈ d.identities, c.Stores i

theorem checkDeclaration_ok {d : Declaration} (h : c.checkDeclaration d = .ok ()) :
    c.DeclarationKnown d := by
  simp only [checkDeclaration, bind, Except.bind] at h
  split at h
  · cases h
  rename_i htype
  split at h
  · cases h
  rename_i halternatives
  exact ⟨checkType_ok htype, fun a ha => checkType_ok (Schema.forM_ok halternatives a ha),
    fun i hi => checkIdentity_ok (Schema.forM_ok h i hi)⟩

/-- What a complex type refers to is there. -/
structure TypeKnown (c : Components) (t : ComplexType) : Prop where
  simple : ∀ {id}, t.content = .simple id → c.Stores id
  group : ∀ {g}, t.content.group? = some g → c.Stores g
  attributes : ∀ a ∈ t.attributes.values, c.Stores a.type

theorem checkTypeDefinition_ok {t : ComplexType}
    (h : c.checkTypeDefinition (.complex t) = .ok ()) : c.TypeKnown t := by
  simp only [checkTypeDefinition, bind, Except.bind] at h
  split at h
  · cases h
  rename_i hcontent
  have hmember : ∀ {g : GroupId}, (if c.hasMember (.group g) then Except.ok () else
      .error (Failure.misuse (.dangling g.text))) = .ok () → c.Stores g := by
    intro g hg
    split at hg
    · rename_i hhas
      exact stores_handle.2 hhas
    · cases hg
  refine ⟨fun hsimple => ?_, fun hgroup => ?_, fun a ha => checkType_ok (Schema.forM_ok h a ha)⟩
  · rw [hsimple] at hcontent
    exact checkType_ok hcontent
  · cases hkind : t.content with
    | empty | simple => cases hkind ▸ hgroup
    | elementOnly g | mixed g =>
        rw [hkind] at hcontent hgroup
        cases hgroup
        exact hmember hcontent

end Components

/-! ## Built schemas -/

namespace Schema.Built

open Components

variable {s : Schema}

theorem checkHandles_ok (hs : s.Built) : s.toComponents.checkHandles = .ok () := by
  obtain ⟨c, -, hbuild⟩ := hs
  have h := build_ok hbuild
  exact h.components ▸ h.handles

theorem namesKnown (hs : s.Built) : s.toComponents.NamesKnown := by
  obtain ⟨c, hc, hbuild⟩ := hs
  obtain rfl := (build_ok hbuild).components
  exact hc.namesKnown

theorem declarationKnown (hs : s.Built) {id : ElementId} (hid : s.Stores id) :
    s.DeclarationKnown (s.element id) := by
  have hcheck := hs.checkHandles_ok
  simp only [checkHandles, bind, Except.bind] at hcheck
  split at hcheck
  · cases hcheck
  rename_i helements
  refine checkDeclaration_ok (forM_ok helements _ ?_)
  rw [element, Array.getElem?_eq_getElem hid]
  exact Array.getElem_mem_toList hid

/-- A complex type is there, and so is what it refers to. -/
theorem typeKnown (hs : s.Built) {id : TypeId} {t : ComplexType} (ht : s.type id = .complex t) :
    s.Stores id ∧ s.TypeKnown t := by
  have hid : s.Stores id := by
    by_contra hout
    rw [type, Array.getElem?_eq_none (Nat.le_of_not_lt hout)] at ht
    cases ht
  have hcheck := hs.checkHandles_ok
  simp only [checkHandles, bind, Except.bind] at hcheck
  split at hcheck
  · cases hcheck
  split at hcheck
  · cases hcheck
  rename_i htypes
  refine ⟨hid, checkTypeDefinition_ok (forM_ok htypes _ ?_)⟩
  rw [← ht, type, Array.getElem?_eq_getElem hid]
  exact Array.getElem_mem_toList hid

theorem stores_member (hs : s.Built) {g : GroupId} {m : Member} (hm : m ∈ (s.group g).members) :
    s.Stores m.handle :=
  stores_handle.2 (hs.forest.isThere hm)

/-- A reference leads to a constraint that is there. -/
theorem stores_refers (hs : s.Built) {id key : IdentityId} (h : (s.rule id).refers = some key) :
    s.Stores key := by
  have hreferred := (hs.rule_eq id).2
  rw [h, referred] at hreferred
  split at hreferred
  · split at hreferred
    · cases hreferred
    · rename_i hnamed
      dsimp only at hreferred
      split at hreferred
      · cases hreferred
      split at hreferred
      · cases hreferred
      cases hreferred
      exact hs.namesKnown.identity hnamed
  · cases hreferred

end Schema.Built

end Conform
