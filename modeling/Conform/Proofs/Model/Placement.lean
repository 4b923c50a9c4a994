import Conform.Proofs.Model.Attribution
import Conform.Proofs.Model.Hops
import Conform.Proofs.Model.Words
import Conform.Proofs.Schema.Built
/-!
# The leaves to which children belong

A walk only stands on leaves of its root group. So in a content without issues every child is
attributed to a leaf of the group that its name matches, and where all leaves have different names
that is the leaf of this name.
-/

namespace Conform

namespace Walk

variable {s : Schema}

/-- What a walk comes to is in the leaves of its root group. -/
structure Inside (s : Schema) (w : Walk) : Prop where
  rest : ∀ f ∈ w.here :: w.outer, ∀ m ∈ f.rest, s.leavesIn m ⊆ s.leaves w.root
  again : ∀ f ∈ w.here :: w.outer, ∀ m ∈ items s w.version f.group,
    s.leavesIn m ⊆ s.leaves w.root
  current : ∀ m ∈ w.current, m ∈ s.leaves w.root

/-- The members through which a walk goes in a group have the leaves of the group. -/
theorem leavesIn_subset_of_items (hs : s.Built) {v : Version} {g : GroupId} {m : Member}
    (hm : m ∈ Walk.items s v g) :
    (s.group g).occurs.isEmpty = false ∧ s.leavesIn m ⊆ s.leaves g := by
  have hmember : ∀ m ∈ (s.group g).members, s.leavesIn m ⊆ s.leaves g := by
    intro m hm x hx
    rw [hs.leaves_eq_flatMap]
    exact List.mem_flatMap.2 ⟨m, hm, hx⟩
  unfold Walk.items at hm
  dsimp only at hm
  split at hm
  · cases hm
  rename_i hoccurs
  refine ⟨by simpa using hoccurs, ?_⟩
  split at hm
  · unfold Schema.unordered at hm
    split at hm
    · exact hmember m hm
    · rw [Schema.Built.leavesIn_leaf (hs.isGroup_of_mem_leaves hm)]
      exact List.cons_subset.2 ⟨hm, List.nil_subset _⟩
  · exact hmember m hm

theorem Inside.of_hop (hs : s.Built) {w w' : Walk} (hop : Hop s w w') (h : w.Inside s) :
    w'.Inside s := by
  obtain ⟨hrest, hitems, hcurrent⟩ := h
  have houter : ∀ {f}, f ∈ w.outer → f ∈ w.here :: w.outer := List.mem_cons_of_mem _
  have hhere := hrest w.here (List.mem_cons_self ..)
  have hall := hitems w.here (List.mem_cons_self ..)
  -- only the innermost group changes
  have hfew : ∀ (rest : List Member) (matched : Bool), (∀ m ∈ rest, s.leavesIn m ⊆ s.leaves w.root) →
      (∀ f ∈ (⟨w.here.group, rest, matched⟩ : Frame) :: w.outer, ∀ m ∈ f.rest,
        s.leavesIn m ⊆ s.leaves w.root) ∧
      ∀ f ∈ (⟨w.here.group, rest, matched⟩ : Frame) :: w.outer, ∀ m ∈ items s w.version f.group,
        s.leavesIn m ⊆ s.leaves w.root := by
    intro rest matched hsub
    refine ⟨List.forall_mem_cons.2 ⟨hsub, fun f hf => hrest f (houter hf)⟩,
      List.forall_mem_cons.2 ⟨hall, fun f hf => hitems f (houter hf)⟩⟩
  cases hop with
  | recount counts ceilings => exact ⟨hrest, hitems, hcurrent⟩
  | mark matched =>
      obtain ⟨hrest', hitems'⟩ := hfew w.here.rest matched hhere
      exact ⟨hrest', hitems', hcurrent⟩
  | rewind =>
      obtain ⟨hrest', hitems'⟩ := hfew (items s w.version w.here.group) w.here.matched hall
      exact ⟨hrest', hitems', hcurrent⟩
  | skip hsuffix =>
      obtain ⟨hrest', hitems'⟩ := hfew _ w.here.matched fun m hm => hhere m (hsuffix.subset hm)
      exact ⟨hrest', hitems', hcurrent⟩
  | @stand m rest hsuffix hleaf =>
      obtain ⟨hrest', hitems'⟩ := hfew rest w.here.matched fun m hm =>
        hhere m (hsuffix.subset (List.mem_cons_of_mem _ hm))
      refine ⟨hrest', hitems', ?_⟩
      rintro x ⟨rfl⟩
      have hsub := hhere m (hsuffix.subset (List.mem_cons_self ..))
      rw [Schema.Built.leavesIn_leaf hleaf] at hsub
      exact hsub (List.mem_cons_self ..)
  | @enter _ g rest hsuffix henter =>
      unfold Walk.enter at henter
      split at henter
      · cases henter
      cases henter
      have hgroup := hhere (.group g) (hsuffix.subset (List.mem_cons_self ..))
      obtain ⟨hrest', hitems'⟩ := hfew rest w.here.matched fun m hm =>
        hhere m (hsuffix.subset (List.mem_cons_of_mem _ hm))
      have hnew : ∀ m ∈ items s w.version g, s.leavesIn m ⊆ s.leaves w.root := by
        intro m hm
        obtain ⟨hoccurs, hsub⟩ := leavesIn_subset_of_items hs hm
        have hleaves : s.leavesIn (.group g) = s.leaves g := by simp [Schema.leavesIn, hoccurs]
        exact List.Subset.trans hsub (hleaves ▸ hgroup)
      exact ⟨List.forall_mem_cons.2 ⟨hnew, hrest'⟩, List.forall_mem_cons.2 ⟨hnew, hitems'⟩,
        hcurrent⟩
  | leave hleave =>
      unfold leave? at hleave
      split at hleave
      · cases hleave
      rename_i f outer heq
      cases hleave
      rw [heq] at hrest hitems
      exact ⟨(List.forall_mem_cons.1 hrest).2, (List.forall_mem_cons.1 hitems).2, hcurrent⟩
  | halt => exact ⟨hrest, hitems, fun m hm => by cases hm⟩

theorem Inside.of_hops (hs : s.Built) {w w' : Walk} (h : Hops s w w') (hin : w.Inside s) :
    w'.Inside s :=
  h.keep (fun hop => Inside.of_hop hs hop) hin

theorem inside_start (hs : s.Built) {root : GroupId} {v : Version} {w : Walk}
    (h : Walk.start s root v = .ok w) : w.Inside s := by
  refine .of_hops hs (hops_start h) ⟨?_, ?_, nofun⟩
  · intro f hf m hm
    obtain rfl := List.mem_singleton.1 hf
    exact (leavesIn_subset_of_items hs hm).2
  · intro f hf m hm
    obtain rfl := List.mem_singleton.1 hf
    exact (leavesIn_subset_of_items hs hm).2

end Walk

/-- A property that walks keep when they are advanced. -/
def Walk.IsKept (s : Schema) (P : Walk → Prop) : Prop :=
  ∀ {w w' : Walk} {matched : Bool} {violations : List Violation}, P w →
    w.advance s matched = (.ok violations, w') → P w'

theorem Walk.isKept_hops {s : Schema} (start : Walk) : Walk.IsKept s (Walk.Hops s start) := by
  intro w w' matched violations hw h
  have hops := Walk.hops_advance (s := s) w matched
  rw [h] at hops
  exact hw.trans hops

namespace Matching

variable {s : Schema} {P : Walk → Prop}

/-- A child without an issue belongs to a leaf on the way of the walk. -/
theorem attributeFrom_leaf (hP : Walk.IsKept s P) {index : Nat} {name : QName}
    {leaf : Option Member} {m' : Matching} (hissues : m'.issues = []) :
    ∀ {fuel : Nat} {m : Matching}, attributeFrom s index name fuel m = .ok (leaf, m') →
      m.isBroken = false → P m.walk →
      (∃ w l, P w ∧ w.current = some l ∧ leaf = some l ∧ s.passes l name = true) ∧
        P m'.walk ∧ m'.isBroken = false := by
  intro fuel
  induction fuel with
  | zero =>
      intro m h
      cases h
  | succ fuel ih =>
      intro m h hbroken hw
      simp only [attributeFrom] at h
      split at h
      · simp only [attributeByName, hbroken] at h
        split at h <;> cases h <;> simp [breakAt, report] at hissues
      rename_i l hcurrent
      split at h
      · rename_i hpasses
        split at h <;> rename_i hadvance <;> cases h
        exact ⟨⟨m.walk, l, hw, hcurrent, rfl, hpasses⟩, hP hw hadvance, hbroken⟩
      · split at h
        · rename_i hadvance
          exact ih h hbroken (hP hw hadvance)
        · cases h
          simp [breakAt, report] at hissues
        · cases h

/-- In a content without issues every child belongs to a leaf that its name matches. -/
theorem children_leaves (hP : Walk.IsKept s P) : ∀ {names : List QName} {index : Nat}
    {m : Matching}, (children s index m names).issues = .ok [] → m.isBroken = false → P m.walk →
      List.Forall₂ (fun leaf name => ∃ w l, P w ∧ w.current = some l ∧ leaf = some l ∧
        s.passes l name = true) (children s index m names).leaves names := by
  intro names
  induction names with
  | nil =>
      intro index m _ _ _
      exact .nil
  | cons name rest ih =>
      intro index m h hbroken hw
      simp only [children] at h ⊢
      split at h
      · cases h
      rename_i leaf m' hchild
      have hissues : m'.issues = [] := List.prefix_nil.1 (children_issues h)
      obtain ⟨hleaf, hw', hbroken'⟩ := attributeFrom_leaf hP hissues hchild hbroken hw
      exact .cons hleaf (ih h hbroken' hw')

end Matching

namespace Schema

variable {s : Schema} {root : GroupId} {names : List QName} {a : Attribution}

/-- In a content without issues every child is attributed to the leaf of a walk that has come about
by advancing a new one. -/
theorem attribution_walks (h : s.attribution root names = .ok a) (hissues : a.issues = .ok []) :
    ∃ start, Walk.start s root s.version = .ok start ∧
      ∀ {P : Walk → Prop}, Walk.IsKept s P → P start →
        List.Forall₂ (fun leaf name => ∃ w l, P w ∧ w.current = some l ∧ leaf = some l ∧
          s.passes l name = true) a.leaves names := by
  simp only [attribution, Matching.start, bind, Except.bind, pure, Except.pure] at h
  split at h
  · cases h
  rename_i m hm
  split at hm
  · cases hm
  rename_i start hstart
  cases hm
  cases h
  exact ⟨start, hstart, fun hP hw => Matching.children_leaves hP hissues rfl hw⟩

/-- In a content without issues every child is attributed to a leaf on the way of a walk. -/
theorem attribution_leaves (h : s.attribution root names = .ok a) (hissues : a.issues = .ok []) :
    ∃ start, Walk.start s root s.version = .ok start ∧
      List.Forall₂ (fun leaf name => ∃ w l, Walk.Hops s start w ∧ w.current = some l ∧
        leaf = some l ∧ s.passes l name = true) a.leaves names := by
  obtain ⟨start, hstart, hall⟩ := attribution_walks h hissues
  exact ⟨start, hstart, hall (Walk.isKept_hops start) .refl⟩

/-- Where all leaves have different names, the names tell the leaves of a content without issues. -/
theorem leaves_of_issues_eq_nil (hs : s.Built) (hdistinct : s.DistinctElements (s.leaves root))
    (h : s.attribution root names = .ok a) (hissues : a.issues = .ok []) :
    s.looseAttribution root names = .ok a := by
  obtain ⟨start, hstart, hall⟩ := attribution_leaves h hissues
  have hroot := Walk.root_start hstart
  have hleaves : a.leaves = names.map (start.leafFor? s) := by
    have hinside := Walk.inside_start hs hstart
    clear h hissues
    generalize a.leaves = leaves at hall
    induction hall with
    | nil => rfl
    | @cons leaf name leaves names hleaf _ ih =>
        obtain ⟨w, l, hw, hcurrent, rfl, hpasses⟩ := hleaf
        have hl : l ∈ s.leaves root := by
          have hin := (hinside.of_hops hs hw).current l hcurrent
          rwa [Walk.root_of_hops hw, hroot] at hin
        have hfind : start.leafFor? s name = some l := by
          unfold Walk.leafFor?
          rw [hroot]
          cases hfind : (s.leaves root).find? fun m => s.passes m name with
          | none => exact absurd hpasses (List.find?_eq_none.1 hfind l hl)
          | some l' =>
              have hpasses' := List.find?_some hfind
              rw [hdistinct.eq_of_passes (List.mem_of_find?_eq_some hfind) hl hpasses' hpasses]
        rw [List.map_cons, hfind, ih]
  simp only [looseAttribution, hstart, bind, Except.bind, pure, Except.pure]
  rw [← hleaves, ← hissues]

end Schema

end Conform
