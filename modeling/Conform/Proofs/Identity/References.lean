import Conform.Identity.Check
import Conform.Proofs.Schema.Rules
import Mathlib.Data.List.Induction
/-!
# References of an element

Which references of a complete element lead nowhere, said without counters and tables: a tuple of a
keyref is looked up among the tuples that the constraint has collected at the same element, if it is
declared there, else at the elements below.
-/

namespace Conform

/-! ## Counting -/

namespace Listing

variable {κ ν : Type} [DecidableEq κ]

theorem get?_of_mem (l : Listing κ ν) {e : κ × ν} (he : e ∈ l.entries) :
    l.get? e.1 = some e.2 := by
  obtain ⟨entries, hnodup⟩ := l
  unfold get?
  induction entries with
  | nil => cases he
  | cons x rest ih =>
      rw [List.map_cons, List.nodup_cons] at hnodup
      rcases List.mem_cons.1 he with rfl | hrest
      · simp
      · have hne : ¬x.1 = e.1 := fun h => hnodup.1 (h ▸ List.mem_map_of_mem hrest)
        rw [List.find?_cons_of_neg (by simpa using hne)]
        exact ih hnodup.2 hrest

/-- A listing is given by its keys and what stands under each of them. -/
theorem entries_eq (l : Listing κ ν) {f : κ → ν} (h : ∀ k ∈ l.keys, l.get? k = some (f k)) :
    l.entries = l.keys.map fun k => (k, f k) := by
  unfold keys
  rw [List.map_map]
  refine (List.map_id _).symm.trans (List.map_congr_left fun e he => ?_)
  have hvalue := h e.1 (List.mem_map_of_mem he)
  rw [l.get?_of_mem he, Option.some.injEq] at hvalue
  exact Prod.ext rfl hvalue

end Listing

namespace TupleCounter

theorem ofList_append (ts : List FieldTuple) (t : FieldTuple) :
    ofList (ts ++ [t]) = (ofList ts).increase t := by
  simp [ofList]

theorem tuples_ofList (ts : List FieldTuple) : (ofList ts).tuples = ts.eraseDups := by
  induction ts using List.reverseRecOn with
  | nil => rfl
  | append_singleton ts t ih =>
      rw [ofList_append, List.eraseDups_append, ← ih]
      have hkeys : (ofList ts).counts.keys = ts.eraseDups := ih
      have hmem : t ∈ (ofList ts).counts.keys ↔ t ∈ ts := by rw [hkeys, List.mem_eraseDups]
      unfold tuples increase
      rw [Listing.keys_insert]
      by_cases ht : t ∈ ts
      · rw [if_pos (hmem.2 ht), List.removeAll, List.filter_cons_of_neg (by simpa using ht)]
        simp
      · rw [if_neg (mt hmem.1 ht), List.removeAll, List.filter_cons_of_pos (by simpa using ht)]
        simp [List.eraseDups_cons]

theorem count_ofList (ts : List FieldTuple) (t : FieldTuple) : (ofList ts).count t = ts.count t := by
  induction ts using List.reverseRecOn with
  | nil => rfl
  | append_singleton ts u ih =>
      rw [ofList_append, count_increase, List.count_append, ← ih]
      by_cases hut : u = t
      · subst hut
        simp
      · simp [hut]

/-- Each of the combinations is counted once, where it came first. -/
theorem entries_ofList (ts : List FieldTuple) :
    (ofList ts).counts.entries = ts.eraseDups.map fun t => (t, ts.count t) := by
  rw [← tuples_ofList]
  refine Listing.entries_eq _ fun t ht => ?_
  obtain ⟨e, he, rfl⟩ := List.mem_map.1 ht
  rw [← count_ofList, count, Listing.get?_of_mem _ he]
  rfl

theorem dangling_ofList (ts : List FieldTuple) (holds : FieldTuple → Bool) :
    (ofList ts).dangling holds =
      (ts.eraseDups.filter fun t => !holds t).map fun t => (t, ts.count t) := by
  rw [dangling, entries_ofList, List.filter_map]
  rfl

end TupleCounter

/-! ## What is held -/

namespace HeldTuples

theorem holds_empty (id : IdentityId) (t : FieldTuple) : empty.holds id t = false := rfl

theorem holds_ofTuples {id key : IdentityId} {ts : List LocatedTuple} {t : FieldTuple} :
    (ofTuples id ts).holds key t = true ↔ id = key ∧ t ∈ ts.map Prod.fst := by
  unfold holds ofTuples
  rw [List.contains_iff_mem]
  constructor
  · intro h
    obtain ⟨u, hu, heq⟩ := List.mem_map.1 h
    obtain ⟨rfl, rfl⟩ := Prod.mk.injEq .. |>.mp heq
    exact ⟨rfl, List.mem_map_of_mem hu⟩
  · rintro ⟨rfl, h⟩
    obtain ⟨u, hu, rfl⟩ := List.mem_map.1 h
    exact List.mem_map.2 ⟨u, hu, rfl⟩

/-- The order in which tuples were collected does not matter. -/
theorem holds_perm {h k : HeldTuples} (hperm : h.pairs.Perm k.pairs) (id : IdentityId)
    (t : FieldTuple) : h.holds id t = k.holds id t := by
  rw [Bool.eq_iff_iff]
  unfold holds
  rw [List.contains_iff_mem, List.contains_iff_mem]
  exact hperm.mem_iff

end HeldTuples

/-! ## What a constraint finds -/

theorem mapM_error {ε α β : Type} {f : α → Except ε β} {e : ε} :
    ∀ {xs : List α}, xs.mapM f = .error e → ∃ x ∈ xs, f x = .error e
  | [], h => nomatch h
  | x :: xs, h => by
    rw [List.mapM_cons] at h
    simp only [bind, Except.bind, pure, Except.pure] at h
    split at h
    · rename_i hx
      cases h
      exact ⟨x, List.mem_cons_self, hx⟩
    · split at h
      · rename_i hxs
        cases h
        obtain ⟨y, hy, he⟩ := mapM_error hxs
        exact ⟨y, List.mem_cons_of_mem _ hy, he⟩
      · cases h

/-- A field has one value, or too many. -/
theorem Path.fieldValue_error {field : Path} {e : Decoded} {fault : IdentityFault}
    (h : field.fieldValue e = .error fault) : fault = .manyValues field.source := by
  unfold fieldValue at h
  split at h
  · cases h
  · cases h
  · cases h
    rfl

namespace Rule

variable {r : Rule} {policy : AbsentKeyPolicy} {scope e : Decoded} {d : Diagnostic}
  {t : LocatedTuple}

theorem examine_problem (h : (r.examine policy e).problem? = some d) :
    (∃ field ∈ r.fields, d = (IdentityFault.manyValues field.source).at e.path) ∨
      ∃ field severity, d =
        { IdentityFault.at (.missingKeyField field r.declared.text) e.path with severity } := by
  unfold examine at h
  split at h
  · rename_i fault hfault
    obtain ⟨field, hfield, hvalue⟩ := mapM_error hfault
    obtain rfl := Path.fieldValue_error hvalue
    cases h
    exact .inl ⟨field, hfield, rfl⟩
  · split at h
    · cases h
      exact .inr ⟨_, _, rfl⟩
    · split at h <;> cases h

theorem examine_tuple (h : (r.examine policy e).tuple? = some t) :
    (r.fields.mapM fun field => field.fieldValue e) = .ok t.1 ∧ r.missing? policy t.1 = none ∧
      (FieldTuple.isAllAbsent t.1 = true → e.isNil = true) ∧ t.2 = e.path := by
  unfold examine at h
  split at h
  · cases h
  · rename_i values hvalues
    split at h
    · cases h
    · rename_i hmissing
      split at h
      · cases h
      · rename_i hkept
        cases h
        exact ⟨hvalues, hmissing, by simpa using hkept, rfl⟩

variable (r scope) in
/-- The elements that the constraint selects, none if it reaches an attribute. -/
def elements : List Decoded :=
  match r.selected scope with
  | .ok elements => elements
  | .error _ => []

theorem mem_elements :
    e ∈ r.elements scope ↔ ∃ elements, r.selected scope = .ok elements ∧ e ∈ elements := by
  unfold elements
  split
  · rename_i h
    simp [h]
  · rename_i h
    simp [h]

theorem selected_error (h : r.selected scope = .error d) :
    d = IdentityFault.selectsAttribute.at scope.path := by
  obtain ⟨node, -, hnode⟩ := mapM_error h
  cases node with
  | element l => cases hnode
  | onAttribute =>
      cases hnode
      rfl

/-- The selector reaches an attribute, or there is a problem with a selected element. -/
theorem problem_cases (h : d ∈ r.problems policy scope) :
    d = IdentityFault.selectsAttribute.at scope.path ∨ ∃ e ∈ r.elements scope,
      (∃ field ∈ r.fields, d = (IdentityFault.manyValues field.source).at e.path) ∨
        ∃ field severity, d =
          { IdentityFault.at (.missingKeyField field r.declared.text) e.path with severity } := by
  obtain ⟨finding, hfinding, hd⟩ := List.mem_filterMap.1 h
  unfold findings at hfinding
  split at hfinding
  · rename_i d' hselected
    obtain rfl := List.mem_singleton.1 hfinding
    cases hd
    exact .inl (selected_error hselected)
  · rename_i elements hselected
    obtain ⟨e, he, rfl⟩ := List.mem_map.1 hfinding
    exact .inr ⟨e, mem_elements.2 ⟨elements, hselected, he⟩, examine_problem hd⟩

variable (r policy scope) in
/-- Every selected element is examined for itself. -/
theorem tuples_eq : r.tuples policy scope =
    (r.elements scope).filterMap fun e => (r.examine policy e).tuple? := by
  unfold tuples findings elements
  cases r.selected scope with
  | error d => rfl
  | ok elements => exact List.filterMap_map ..

end Rule

/-- A reference that leads nowhere. -/
def Diagnostic.isDangling (d : Diagnostic) : Bool :=
  match d.cause with
  | .identity (.dangling ..) => true
  | _ => false

namespace Schema

variable (s : Schema) (policy : AbsentKeyPolicy)

/-- The constraints that the declaration of an element lists. -/
def constraintsOf (n : Decoded) : List IdentityId :=
  match n.declaration with
  | none => []
  | some id => (s.element id).identities

/-- The tuples that a constraint collects at an element. -/
def collected (n : Decoded) (id : IdentityId) : List FieldTuple :=
  ((s.rule id).tuples policy n).map Prod.fst

/-- The tuples to which references at an element may refer: those that the constraint has collected
there if it is declared there, else those of all elements below that declare it. -/
def referable (n : Decoded) (key : IdentityId) : List FieldTuple :=
  if key ∈ s.constraintsOf n then s.collected policy n key
  else (Decoded.nodesOfAll n.children).flatMap fun m =>
    if key ∈ s.constraintsOf m then s.collected policy m key else []

/-- The diagnostic of a tuple at an element that has come a number of times and that the constraint
`key` does not hold. -/
def danglingAt (n : Decoded) (key : IdentityId) (t : FieldTuple) (times : Nat) : Diagnostic :=
  { IdentityFault.at (.dangling t (s.rule key).declared.text times) n.path with
    element := n.declaration }

/-- The references of a constraint at an element that lead nowhere: one diagnostic for each tuple,
in the order in which they first came. -/
def unresolved (n : Decoded) (id : IdentityId) : List Diagnostic :=
  match (s.rule id).refers with
  | none => []
  | some key =>
    let ts := s.collected policy n id
    (ts.eraseDups.filter fun t => t ∉ s.referable policy n key).map fun t =>
      s.danglingAt n key t (ts.count t)

variable {s}

/-- The references of an element, from what is held below it. -/
theorem danglingReferences_eq (hs : s.Built) (ids : List IdentityId) (scope : Decoded)
    (below : HeldTuples) (id : IdentityId) :
    s.danglingReferences policy ids scope below id =
      match (s.rule id).refers with
      | none => []
      | some key =>
        let ts := s.collected policy scope id
        (ts.eraseDups.filter fun t => ¬(if key ∈ ids then t ∈ s.collected policy scope key
            else below.holds key t)).map fun t =>
          IdentityFault.at (.dangling t (s.rule key).declared.text (ts.count t)) scope.path := by
  unfold danglingReferences
  dsimp only
  cases hrefers : (s.rule id).refers with
  | none => split <;> rfl
  | some key =>
      obtain ⟨hkeyref, hkey⟩ := hs.isKeyref_of_refers hrefers
      rw [if_neg (by simp [hkeyref])]
      dsimp only
      rw [Rule.dangling, TupleCounter.dangling_ofList, List.map_map]
      refine congrArg (List.map _) (List.filter_congr fun t _ => ?_)
      rw [Bool.eq_iff_iff, Bool.not_eq_true', decide_eq_true_eq, ← Bool.not_eq_true]
      refine not_congr ?_
      by_cases hin : key ∈ ids
      · rw [if_pos (by simp [hin, hkey]), if_pos hin]
        simp [heldAt, hkey, HeldTuples.holds_ofTuples, collected]
      · rw [if_neg (by simp [hin]), if_neg hin]

/-- Neither the order of the constraints nor that of the tuples below matters to a reference. -/
theorem danglingReferences_perm (hs : s.Built) {ids ids' : List IdentityId}
    {below below' : HeldTuples} (hids : ids.Perm ids') (hbelow : below.pairs.Perm below'.pairs)
    (scope : Decoded) (id : IdentityId) :
    s.danglingReferences policy ids scope below id =
      s.danglingReferences policy ids' scope below' id := by
  simp only [danglingReferences_eq policy hs, hids.mem_iff, HeldTuples.holds_perm hbelow]

/-! ## The check of an element -/

theorem isDangling_problems {r : Rule} {scope : Decoded} {d : Diagnostic}
    (h : d ∈ r.problems policy scope) : d.isDangling = false := by
  obtain rfl | ⟨_, -, ⟨_, -, rfl⟩ | ⟨_, _, rfl⟩⟩ := Rule.problem_cases h <;> rfl

theorem own_cases {scope : Decoded} {id : IdentityId} {d : Diagnostic}
    (h : d ∈ s.ownProblems policy scope id) : d ∈ (s.rule id).problems policy scope ∨
      (s.rule id).declared.isKeyref = false ∧
        ∃ t ∈ TupleCounter.empty.seconds ((s.rule id).tuples policy scope),
          d = IdentityFault.at (.duplicate t.1 (s.rule id).declared.text) t.2 := by
  refine (List.mem_append.1 h).imp_right fun h => ?_
  split at h
  · cases h
  · rename_i hkeyref
    obtain ⟨t, ht, rfl⟩ := List.mem_map.1 h
    exact ⟨Bool.eq_false_iff.2 hkeyref, t, ht, rfl⟩

theorem dangling_cases {ids : List IdentityId} {scope : Decoded} {below : HeldTuples}
    {id : IdentityId} {d : Diagnostic} (h : d ∈ s.danglingReferences policy ids scope below id) :
    (s.rule id).declared.isKeyref = true ∧
      ∃ key, (s.rule id).refers = some key ∧ ∃ t ∈ s.collected policy scope id,
        d = IdentityFault.at (.dangling t (s.rule key).declared.text
          ((s.collected policy scope id).count t)) scope.path := by
  unfold danglingReferences at h
  dsimp only at h
  split at h
  · cases h
  · rename_i hkeyref
    split at h
    · cases h
    · rename_i key hkey
      rw [Rule.dangling, TupleCounter.dangling_ofList] at h
      obtain ⟨e, he, rfl⟩ := List.mem_map.1 h
      obtain ⟨t, ht, rfl⟩ := List.mem_map.1 he
      refine ⟨by simpa using hkeyref, key, hkey, t, ?_, rfl⟩
      exact List.mem_eraseDups.1 (List.mem_filter.1 ht).1

theorem problem_cases {resolves : Bool} {ids : List IdentityId} {scope : Decoded}
    {below : HeldTuples} {d : Diagnostic}
    (h : d ∈ (s.checkScope policy resolves ids scope below).problems) :
    ∃ id ∈ ids, d ∈ s.ownProblems policy scope id ∨
      d ∈ s.danglingReferences policy ids scope below id := by
  rcases List.mem_append.1 h with h | h
  · obtain ⟨id, hid, h⟩ := List.mem_flatMap.1 h
    exact ⟨id, hid, .inl h⟩
  · split at h
    · obtain ⟨id, hid, h⟩ := List.mem_flatMap.1 h
      exact ⟨id, hid, .inr h⟩
    · cases h

theorem isDangling_ownProblems {scope : Decoded} {id : IdentityId} {d : Diagnostic}
    (h : d ∈ s.ownProblems policy scope id) : d.isDangling = false := by
  obtain h | ⟨-, _, -, rfl⟩ := own_cases policy h
  · exact isDangling_problems policy h
  · rfl

theorem isDangling_danglingReferences {ids : List IdentityId} {scope : Decoded}
    {below : HeldTuples} {id : IdentityId} {d : Diagnostic}
    (h : d ∈ s.danglingReferences policy ids scope below id) : d.isDangling = true := by
  obtain ⟨-, _, -, _, -, rfl⟩ := dangling_cases policy h
  rfl

/-- All problems of an element are problems of identity constraints. -/
theorem kind_checkScope {resolves : Bool} {ids : List IdentityId} {scope : Decoded}
    {below : HeldTuples} {d : Diagnostic}
    (h : d ∈ (s.checkScope policy resolves ids scope below).problems) : d.kind = .identity := by
  obtain ⟨_, -, h | h⟩ := problem_cases policy h
  · obtain h | ⟨-, _, -, rfl⟩ := own_cases policy h
    · obtain rfl | ⟨_, -, ⟨_, -, rfl⟩ | ⟨_, _, rfl⟩⟩ := Rule.problem_cases h <;> rfl
    · rfl
  · obtain ⟨-, _, -, _, -, rfl⟩ := dangling_cases policy h
    rfl

/-- The dangling references among the problems of an element are those of its constraints. -/
theorem problems_checkScope (ids : List IdentityId) (scope : Decoded) (below : HeldTuples) :
    (s.checkScope policy true ids scope below).problems.filter Diagnostic.isDangling =
      ids.flatMap (s.danglingReferences policy ids scope below) := by
  unfold checkScope
  rw [List.filter_append, List.filter_eq_nil_iff.2, if_pos rfl, List.filter_eq_self.2]
  · rfl
  · intro d hd
    obtain ⟨id, -, hd⟩ := List.mem_flatMap.1 hd
    exact isDangling_danglingReferences policy hd
  · intro d hd
    obtain ⟨id, -, hd⟩ := List.mem_flatMap.1 hd
    simp [isDangling_ownProblems policy hd]

/-- Keys and uniques hold their tuples at an element, keyrefs hold none. -/
theorem holds_heldAt {scope : Decoded} {id key : IdentityId} {t : FieldTuple} :
    (s.heldAt policy scope id).holds key t = true ↔ id = key ∧
      (s.rule key).declared.isKeyref = false ∧ t ∈ s.collected policy scope key := by
  unfold heldAt
  dsimp only
  split
  · rename_i hid
    rw [HeldTuples.holds_empty]
    constructor
    · nofun
    · rintro ⟨rfl, hkey, -⟩
      exact absurd hid (Bool.eq_false_iff.1 hkey)
  · rename_i hid
    rw [HeldTuples.holds_ofTuples]
    constructor
    · rintro ⟨rfl, h⟩
      exact ⟨rfl, Bool.eq_false_iff.2 hid, h⟩
    · rintro ⟨rfl, -, h⟩
      exact ⟨rfl, h⟩

/-- After the check of an element its own keys are held too. -/
theorem held_checkScope {resolves : Bool} {ids : List IdentityId} {scope : Decoded}
    {below : HeldTuples} {key : IdentityId} {t : FieldTuple} :
    (s.checkScope policy resolves ids scope below).held.holds key t = true ↔
      below.holds key t = true ∨
        key ∈ ids ∧ (s.rule key).declared.isKeyref = false ∧ t ∈ s.collected policy scope key := by
  unfold checkScope
  dsimp only
  induction ids generalizing below with
  | nil => simp
  | cons id ids ih =>
      rw [List.foldl_cons, ih, HeldTuples.holds_append, Bool.or_eq_true, holds_heldAt policy,
        List.mem_cons]
      constructor
      · rintro ((h | ⟨rfl, h⟩) | h)
        · exact .inl h
        · exact .inr ⟨.inl rfl, h⟩
        · exact .inr ⟨.inr h.1, h.2⟩
      · rintro (h | ⟨rfl | h, ht⟩)
        · exact .inl (.inl h)
        · exact .inl (.inr ⟨rfl, ht⟩)
        · exact .inr ⟨h, ht⟩

end Schema

end Conform
