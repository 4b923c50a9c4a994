import Conform.Proofs.Identity.References
import Conform.Proofs.Schema.Sample
/-!
# Repeated tuples of an element

Which tuples of a key or a unique are reported as repeated, said without counters: each tuple that
comes twice or more is reported once, where it comes for the second time. What is held afterwards
are the tuples themselves, beside what was held below.
-/

namespace Conform

section Second

variable {κ α : Type} [BEq κ]

/-- The places at which a key comes for the second time, after some others. -/
def placesAfter (earlier : List κ) (es : List (κ × α)) : List (Fin es.length) :=
  (List.finRange es.length).filter fun i =>
    (earlier ++ (es.take i).map Prod.fst).count es[i].1 = 1

theorem placesAfter_cons (earlier : List κ) (e : κ × α) (es : List (κ × α)) :
    placesAfter earlier (e :: es) =
      (if earlier.count e.1 = 1 then [(0 : Fin (es.length + 1))] else []) ++
        (placesAfter (earlier ++ [e.1]) es).map Fin.succ := by
  have hfirst : earlier ++ ((e :: es).take (0 : Fin (es.length + 1))).map Prod.fst = earlier :=
    List.append_nil _
  have hrest : ∀ i : Fin es.length, earlier ++ ((e :: es).take i.succ).map Prod.fst =
      earlier ++ [e.1] ++ (es.take i).map Prod.fst := fun i => by simp
  unfold placesAfter
  simp only [List.length_cons, List.finRange_succ, List.filter_cons, List.filter_map,
    Function.comp_def, Fin.getElem_fin, hfirst, hrest, decide_eq_true_eq]
  by_cases h : earlier.count e.1 = 1
  · rw [if_pos h]
    exact if_pos h
  · rw [if_neg h]
    exact if_neg h

/-- The places at which a key comes for the second time. -/
def secondPlaces (es : List (κ × α)) : List (Fin es.length) := placesAfter [] es

theorem mem_secondPlaces {es : List (κ × α)} {i : Fin es.length} :
    i ∈ secondPlaces es ↔ ((es.take i).map Prod.fst).count es[i].1 = 1 := by
  simp [secondPlaces, placesAfter]

theorem pairwise_secondPlaces (es : List (κ × α)) : (secondPlaces es).Pairwise (· < ·) :=
  (List.pairwise_lt_finRange es.length).filter _

end Second

namespace TupleCounter

variable {α : Type}

/-- The entries that are second occurrences are those at the places of second occurrences. -/
theorem seconds_ofList (earlier : List FieldTuple) (es : List (FieldTuple × α)) :
    (ofList earlier).seconds es = (placesAfter earlier es).map fun i => es[i] := by
  induction es generalizing earlier with
  | nil => rfl
  | cons e es ih =>
      rw [seconds, count_ofList, ← ofList_append, ih, placesAfter_cons, List.map_append,
        List.map_map]
      by_cases h : earlier.count e.1 = 1 <;> simp only [h, if_true, if_false] <;> rfl

theorem seconds_empty (es : List (FieldTuple × α)) :
    empty.seconds es = (secondPlaces es).map fun i => es[i] := seconds_ofList [] es

/-- A tuple is a second occurrence once if it has not come twice before and comes twice then. -/
theorem count_seconds (earlier : List FieldTuple) (es : List (FieldTuple × α)) (t : FieldTuple) :
    (((ofList earlier).seconds es).map Prod.fst).count t =
      if earlier.count t < 2 ∧ 2 ≤ earlier.count t + (es.map Prod.fst).count t then 1 else 0 := by
  -- each entry goes over to the earlier ones: the sum of both counts stays the same
  induction es generalizing earlier with
  | nil =>
      rw [seconds, List.map_nil, List.count_nil, if_neg]
      omega
  | cons e es ih =>
      have hrest := ih (earlier ++ [e.1])
      rw [List.count_append, List.count_singleton] at hrest
      rw [seconds, count_ofList, ← ofList_append, List.map_cons, List.count_cons]
      by_cases heq : e.1 = t
      · subst heq
        rw [if_pos BEq.rfl] at hrest ⊢
        by_cases hsecond : earlier.count e.1 = 1
        · rw [if_pos hsecond, List.map_cons, List.count_cons_self, hrest, if_neg, if_pos] <;> omega
        · rw [if_neg hsecond, hrest]
          exact if_congr (by omega) rfl rfl
      · have hne : ¬(e.1 == t) = true := by simpa using heq
        rw [if_neg hne, Nat.add_zero] at hrest ⊢
        rw [← hrest]
        by_cases hsecond : earlier.count e.1 = 1
        · rw [if_pos hsecond, List.map_cons, List.count_cons_of_ne heq]
        · rw [if_neg hsecond]

/-- Every tuple that comes twice or more is a second occurrence once, the others never are. -/
theorem count_seconds_empty (es : List (FieldTuple × α)) (t : FieldTuple) :
    ((empty.seconds es).map Prod.fst).count t =
      if 2 ≤ (es.map Prod.fst).count t then 1 else 0 := by
  have hcount := count_seconds [] es t
  rw [List.count_nil, Nat.zero_add] at hcount
  exact hcount.trans (if_congr (and_iff_right (by decide)) rfl rfl)

theorem count_secondPlaces (es : List (FieldTuple × α)) (t : FieldTuple) :
    ((secondPlaces es).map fun i => es[i].1).count t =
      if 2 ≤ (es.map Prod.fst).count t then 1 else 0 := by
  have hcount := count_seconds_empty es t
  rwa [seconds_empty, List.map_map] at hcount

theorem two_le_count_of_mem_seconds {es : List (FieldTuple × α)} {e : FieldTuple × α}
    (h : e ∈ empty.seconds es) : 2 ≤ (es.map Prod.fst).count e.1 := by
  have hpos : 0 < ((empty.seconds es).map Prod.fst).count e.1 :=
    List.count_pos_iff.2 (List.mem_map_of_mem h)
  rw [count_seconds_empty] at hpos
  by_contra hfew
  rw [if_neg hfew] at hpos
  exact Nat.lt_irrefl 0 hpos

/-- Entries that come later are judged by the counts that the earlier ones lead to. -/
theorem seconds_append (c : TupleCounter) (es more : List (FieldTuple × α)) :
    c.seconds (es ++ more) =
      c.seconds es ++ ((es.map Prod.fst).foldl increase c).seconds more := by
  induction es generalizing c with
  | nil => rfl
  | cons e es ih =>
      rw [List.cons_append, seconds, seconds, ih, List.map_cons, List.foldl_cons]
      split
      · rw [List.cons_append]
      · rfl

end TupleCounter

/-- A tuple that has come before. -/
def Diagnostic.isDuplicate (d : Diagnostic) : Bool :=
  match d.cause with
  | .identity (.duplicate ..) => true
  | _ => false

namespace Schema

variable (s : Schema) (policy : AbsentKeyPolicy)

/-- The repeated tuples of a constraint at an element: one diagnostic for each second occurrence, at
the path of its element. Keyrefs may repeat tuples. -/
def repetitions (scope : Decoded) (id : IdentityId) : List Diagnostic :=
  let ts := (s.rule id).tuples policy scope
  if (s.rule id).declared.isKeyref then []
  else (secondPlaces ts).map fun i =>
    IdentityFault.at (.duplicate ts[i].1 (s.rule id).declared.text) ts[i].2

variable {s}

theorem isDuplicate_problems {r : Rule} {scope : Decoded} {d : Diagnostic}
    (h : d ∈ r.problems policy scope) : d.isDuplicate = false := by
  obtain rfl | ⟨_, -, ⟨_, -, rfl⟩ | ⟨_, _, rfl⟩⟩ := Rule.problem_cases h <;> rfl

theorem isDuplicate_danglingReferences {ids : List IdentityId} {scope : Decoded}
    {below : HeldTuples} {id : IdentityId} {d : Diagnostic}
    (h : d ∈ s.danglingReferences policy ids scope below id) : d.isDuplicate = false := by
  obtain ⟨-, _, -, _, -, rfl⟩ := dangling_cases policy h
  rfl

/-- The repetitions among the problems of one constraint by itself. -/
theorem ownProblems_repetitions (scope : Decoded) (id : IdentityId) :
    (s.ownProblems policy scope id).filter Diagnostic.isDuplicate =
      s.repetitions policy scope id := by
  unfold ownProblems repetitions
  dsimp only
  rw [List.filter_append, List.filter_eq_nil_iff.2, List.nil_append]
  · split
    · rfl
    · rw [Rule.duplicates, TupleCounter.seconds_empty, List.map_map, List.filter_eq_self.2]
      · rfl
      · intro d hd
        obtain ⟨_, -, rfl⟩ := List.mem_map.1 hd
        rfl
  · intro d hd
    simp [isDuplicate_problems policy hd]

/-- The check of an element reports the repeated tuples of its constraints, each once, where it
comes for the second time. It counts how often each tuple comes, and afterwards the tuples of its
keys and uniques are held beside those held below; what other constraints hold stays as it was. -/
theorem checkScope_repetitions (resolves : Bool) (ids : List IdentityId) (scope : Decoded)
    (below : HeldTuples) :
    let check := s.checkScope policy resolves ids scope below
    check.problems.filter Diagnostic.isDuplicate = ids.flatMap (s.repetitions policy scope) ∧
    (∀ id ∈ ids, (s.rule id).declared.isKeyref = false →
      let ts := (s.rule id).tuples policy scope
      let counter := TupleCounter.ofList (ts.map Prod.fst)
      s.repetitions policy scope id = ((secondPlaces ts).map fun i =>
        IdentityFault.at (.duplicate ts[i].1 (s.rule id).declared.text) ts[i].2) ∧
      (secondPlaces ts).Pairwise (· < ·) ∧
      (∀ i, i ∈ secondPlaces ts ↔ ((ts.take i).map Prod.fst).count ts[i].1 = 1) ∧
      (∀ t, ((secondPlaces ts).map fun i => ts[i].1).count t =
        if 2 ≤ (ts.map Prod.fst).count t then 1 else 0) ∧
      (∀ more, TupleCounter.empty.seconds (ts ++ more) =
        TupleCounter.empty.seconds ts ++ counter.seconds more) ∧
      (∀ t, counter.count t = (ts.map Prod.fst).count t) ∧
      ∀ t, check.held.holds id t = true ↔ below.holds id t = true ∨ t ∈ ts.map Prod.fst) ∧
    ∀ id, id ∉ ids ∨ (s.rule id).declared.isKeyref = true →
      ∀ t, check.held.holds id t = below.holds id t := by
  refine ⟨?_, fun id hid hkeyref => ⟨?_, pairwise_secondPlaces _, fun _ => mem_secondPlaces,
    TupleCounter.count_secondPlaces _, TupleCounter.seconds_append _ _,
    TupleCounter.count_ofList _, fun t => ?_⟩, fun id hid t => ?_⟩
  · unfold checkScope
    rw [List.filter_append, List.filter_flatMap, List.filter_eq_nil_iff.2, List.append_nil]
    · simp only [ownProblems_repetitions]
    · intro d hd
      split at hd
      · obtain ⟨id, -, hd⟩ := List.mem_flatMap.1 hd
        simp [isDuplicate_danglingReferences policy hd]
      · cases hd
  · unfold repetitions
    rw [hkeyref]
    rfl
  · rw [held_checkScope policy]
    exact or_congr_right ((and_iff_right hid).trans (and_iff_right hkeyref))
  · rw [Bool.eq_iff_iff, held_checkScope policy, or_iff_left]
    rintro ⟨hin, hkeyref, -⟩
    rcases hid with hid | hid
    · exact hid hin
    · exact Bool.eq_false_iff.1 hkeyref hid

end Schema

/-- Items with unique names. -/
def repetitionSample : Components :=
  ((Components.withElements .v10 [("item", ⟨0, none⟩)]).addIdentity
    ⟨.plain "names", .unique, "item", ["@n"], .empty⟩).2

/-- Items `a`, `b`, `a`, `a`, `b`. -/
def repetitionScope : Decoded :=
  let item (n path : String) : Decoded := { Decoded.leaf (.plain "item") path with
    attributes := Listing.ofList [(.plain "n", .text n)] }
  { Decoded.leaf (.plain "items") "/items" with
    children := [item "a" "/items/item[1]", item "b" "/items/item[2]", item "a" "/items/item[3]",
      item "a" "/items/item[4]", item "b" "/items/item[5]"] }

/-- The second `a` and the second `b` are reported, the third `a` is not. -/
theorem checkScope_repetitions_sample :
    let s := repetitionSample.schema
    let check := s.checkScope .error true [⟨0⟩] repetitionScope ⟨[(⟨0⟩, [.text "c"])]⟩
    repetitionSample.build.isOk = true ∧ (s.rule ⟨0⟩).declared.isKeyref = false ∧
      (check.problems.filter Diagnostic.isDuplicate).map (fun d => (d.reason, d.path)) =
        [("duplicated value ('a',) for unique 'names'", "/items/item[3]"),
          ("duplicated value ('b',) for unique 'names'", "/items/item[5]")] ∧
      (∀ t ∈ ["a", "b", "c"], check.held.holds ⟨0⟩ [.text t] = true) ∧
      check.held.holds ⟨1⟩ [.text "c"] = false := by
  obtain ⟨hproblems, hown, hothers⟩ := Schema.checkScope_repetitions (s := repetitionSample.schema)
    .error true [⟨0⟩] repetitionScope ⟨[(⟨0⟩, [.text "c"])]⟩
  have hkeyref : (repetitionSample.schema.rule ⟨0⟩).declared.isKeyref = false := by decide +kernel
  obtain ⟨-, -, -, -, -, -, hheld⟩ := hown ⟨0⟩ List.mem_cons_self hkeyref
  refine ⟨by decide +kernel, hkeyref, ?_, fun t ht => (hheld _).2 ?_, ?_⟩
  · rw [hproblems]
    decide +kernel
  · revert t
    decide +kernel
  · rw [hothers ⟨1⟩ (.inl (by decide))]
    decide +kernel

end Conform
