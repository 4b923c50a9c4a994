import Conform.Proofs.Identity.References
/-!
# Where constraints look

A constraint looks at elements of the tree below its scope element, and its problems are reported
at their paths.
-/

namespace Conform

namespace Decoded

theorem mem_nodes_self (d : Decoded) : d ∈ d.nodes := by
  cases d
  rw [nodes]
  exact List.mem_cons_self

theorem mem_nodesOfAll {d : Decoded} : ∀ {ds : List Decoded}, d ∈ ds → d ∈ nodesOfAll ds
  | _ :: _, h => by
    rw [nodesOfAll]
    rcases List.mem_cons.1 h with rfl | h
    · exact List.mem_append_left _ (mem_nodes_self d)
    · exact List.mem_append_right _ (mem_nodesOfAll h)

theorem mem_nodes_of_mem_children {d c : Decoded} (h : c ∈ d.children) : c ∈ d.nodes := by
  cases d
  rw [nodes]
  exact List.mem_cons_of_mem _ (mem_nodesOfAll h)

mutual

theorem mem_nodes_trans : ∀ {d m n : Decoded}, m ∈ d.nodes → n ∈ m.nodes → n ∈ d.nodes
  | ⟨_, _, _, _, children, _, _, _, _⟩, m, n, hm, hn => by
    rw [nodes] at hm ⊢
    rcases List.mem_cons.1 hm with rfl | hm
    · rwa [nodes] at hn
    · exact List.mem_cons_of_mem _ (mem_nodesOfAll_trans hm hn)

theorem mem_nodesOfAll_trans : ∀ {ds : List Decoded} {m n : Decoded}, m ∈ nodesOfAll ds →
    n ∈ m.nodes → n ∈ nodesOfAll ds
  | d :: rest, m, n, hm, hn => by
    rw [nodesOfAll] at hm ⊢
    rcases List.mem_append.1 hm with hm | hm
    · exact List.mem_append_left _ (mem_nodes_trans hm hn)
    · exact List.mem_append_right _ (mem_nodesOfAll_trans hm hn)

end

end Decoded

/-! ## Paths of identity constraints -/

namespace Located

theorem mem_of_mem_childrenFrom {place : List Nat} {l : Located} : ∀ {i : Nat} {ds : List Decoded},
    l ∈ childrenFrom place i ds → l.element ∈ ds
  | _, _ :: _, h => by
    rcases List.mem_cons.1 h with rfl | h
    · exact List.mem_cons_self
    · exact List.mem_cons_of_mem _ (mem_of_mem_childrenFrom h)

mutual

theorem mem_nodes_of_mem_below : ∀ {place : List Nat} {d : Decoded} {l : Located},
    l ∈ below place d → l.element ∈ d.nodes
  | place, ⟨_, _, _, _, children, _, _, _, _⟩, l, h => by
    rw [below] at h
    rw [Decoded.nodes]
    rcases List.mem_cons.1 h with rfl | h
    · exact List.mem_cons_self
    · exact List.mem_cons_of_mem _ (mem_nodes_of_mem_belowAll h)

theorem mem_nodes_of_mem_belowAll : ∀ {place : List Nat} {i : Nat} {ds : List Decoded}
    {l : Located}, l ∈ belowAll place i ds → l.element ∈ Decoded.nodesOfAll ds
  | place, i, d :: rest, l, h => by
    rw [belowAll] at h
    rw [Decoded.nodesOfAll]
    rcases List.mem_append.1 h with h | h
    · exact List.mem_append_left _ (mem_nodes_of_mem_below h)
    · exact List.mem_append_right _ (mem_nodes_of_mem_belowAll h)

end

end Located

namespace Path

variable {context : Decoded} {n : Node}

/-- Steps do not leave the tree. -/
theorem owner_mem_of_mem_follow {steps : List (Step NameTest)} {here : List Located}
    (hhere : ∀ l ∈ here, l.element ∈ context.nodes) (h : n ∈ follow steps here) :
    n.owner.element ∈ context.nodes := by
  induction steps generalizing here with
  | nil =>
      obtain ⟨l, hl, rfl⟩ := List.mem_map.1 h
      exact hhere l hl
  | cons step rest ih =>
      cases step with
      | self => exact ih hhere h
      | descendants =>
          refine ih (fun l hl => ?_) h
          obtain ⟨top, htop, hbelow⟩ := List.mem_flatMap.1 hl
          exact Decoded.mem_nodes_trans (hhere top htop) (Located.mem_nodes_of_mem_below hbelow)
      | child t =>
          refine ih (fun l hl => ?_) h
          obtain ⟨top, htop, hchild⟩ := List.mem_flatMap.1 hl
          have hmem := Located.mem_of_mem_childrenFrom (List.mem_filter.1 hchild).1
          exact Decoded.mem_nodes_trans (hhere top htop) (Decoded.mem_nodes_of_mem_children hmem)
      | onAttributes t =>
          obtain ⟨l, hl, hattribute⟩ := List.mem_flatMap.1 h
          obtain ⟨a, -, rfl⟩ := List.mem_map.1 hattribute
          exact hhere l hl

theorem mem_union : ∀ {more nodes : List Node}, n ∈ union nodes more → n ∈ nodes ∨ n ∈ more
  | [], _, h => .inl h
  | m :: more, nodes, h => by
    rw [union, List.foldl_cons] at h
    have hlater : n ∈ union (if nodes.any (·.key = m.key) then nodes else nodes ++ [m]) more := h
    rcases mem_union hlater with h | h
    · split at h
      · exact .inl h
      · rcases List.mem_append.1 h with h | h
        · exact .inl h
        · exact .inr (List.mem_singleton.1 h ▸ List.mem_cons_self)
    · exact .inr (List.mem_cons_of_mem _ h)

/-- What a path selects belongs to the tree of its context. -/
theorem owner_mem_of_mem_select {p : Path} (h : n ∈ p.select context) :
    n.owner.element ∈ context.nodes := by
  have hbranches : ∀ (branches : List (List (Step NameTest))) (found : List Node),
      (∀ m ∈ found, m.owner.element ∈ context.nodes) →
        ∀ m ∈ branches.foldl (fun found steps => union found (follow steps [⟨[], context⟩])) found,
          m.owner.element ∈ context.nodes := by
    intro branches
    induction branches with
    | nil => exact fun _ hfound => hfound
    | cons steps rest ih =>
        intro found hfound
        refine ih _ fun m hm => (mem_union hm).elim (hfound m) fun hm => ?_
        refine owner_mem_of_mem_follow (fun l hl => ?_) hm
        rw [List.mem_singleton.1 hl]
        exact context.mem_nodes_self
  exact hbranches p.branches [] (fun _ h => by cases h) n h

end Path

/-! ## Paths of problems -/

theorem mem_of_mapM_ok {ε α β : Type} {f : α → Except ε β} {xs : List α} {ys : List β}
    (h : xs.mapM f = .ok ys) (y : β) (hy : y ∈ ys) : ∃ x ∈ xs, f x = .ok y := by
  obtain ⟨i, hi⟩ := List.mem_iff_getElem?.1 hy
  have hx := mapM_ok h i
  rw [hi] at hx
  obtain ⟨x, hget, hfx⟩ := Option.map_eq_some_iff.1 hx
  exact ⟨x, List.mem_of_getElem? hget, hfx⟩

/-- A path of an element of the tree. -/
def Decoded.HasPath (d : Decoded) (path : String) : Prop := ∃ n ∈ d.nodes, n.path = path

namespace Rule

variable {r : Rule} {policy : AbsentKeyPolicy} {scope e : Decoded}

theorem mem_nodes_of_mem_elements (h : e ∈ r.elements scope) : e ∈ scope.nodes := by
  obtain ⟨elements, hselected, he⟩ := mem_elements.1 h
  obtain ⟨n, hn, helement⟩ := mem_of_mapM_ok hselected e he
  have hmem := Path.owner_mem_of_mem_select hn
  cases n with
  | element l =>
      cases helement
      exact hmem
  | onAttribute => cases helement

theorem hasPath_problems {d : Diagnostic} (h : d ∈ r.problems policy scope) :
    scope.HasPath d.path := by
  obtain rfl | ⟨e, he, ⟨_, -, rfl⟩ | ⟨_, _, rfl⟩⟩ := problem_cases h
  · exact ⟨scope, scope.mem_nodes_self, rfl⟩
  · exact ⟨e, mem_nodes_of_mem_elements he, rfl⟩
  · exact ⟨e, mem_nodes_of_mem_elements he, rfl⟩

theorem hasPath_tuples {t : LocatedTuple} (h : t ∈ r.tuples policy scope) :
    scope.HasPath t.2 := by
  rw [tuples_eq] at h
  obtain ⟨e, he, ht⟩ := List.mem_filterMap.1 h
  exact ⟨e, mem_nodes_of_mem_elements he, (examine_tuple ht).2.2.2.symm⟩

end Rule

theorem TupleCounter.mem_of_mem_seconds {α : Type} {t : FieldTuple × α} :
    ∀ {ts : List (FieldTuple × α)} {c : TupleCounter}, t ∈ c.seconds ts → t ∈ ts
  | e :: rest, c, h => by
    unfold seconds at h
    split at h
    · rcases List.mem_cons.1 h with rfl | h
      · exact List.mem_cons_self
      · exact List.mem_cons_of_mem _ (mem_of_mem_seconds h)
    · exact List.mem_cons_of_mem _ (mem_of_mem_seconds h)

/-- The problems of an element's constraints are at paths of elements in its tree. -/
theorem Schema.hasPath_checkScope {s : Schema} {policy : AbsentKeyPolicy} {resolves : Bool}
    {ids : List IdentityId} {scope : Decoded} {below : HeldTuples} {d : Diagnostic}
    (h : d ∈ (s.checkScope policy resolves ids scope below).problems) : scope.HasPath d.path := by
  obtain ⟨_, -, h | h⟩ := problem_cases policy h
  · obtain h | ⟨-, _, ht, rfl⟩ := own_cases policy h
    · exact Rule.hasPath_problems h
    · exact Rule.hasPath_tuples (TupleCounter.mem_of_mem_seconds ht)
  · obtain ⟨-, _, -, _, -, rfl⟩ := dangling_cases policy h
    exact ⟨scope, scope.mem_nodes_self, rfl⟩

end Conform
