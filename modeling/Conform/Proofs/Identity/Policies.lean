import Conform.Proofs.Identity.References
import Mathlib.Data.List.Forall2
/-!
# Policies about missing values

A policy decides how severe it is that a key misses a value. An element with such a problem has no
tuple, however severe the problem is, so two policies collect the same tuples and lead to the same
problems up to the severity of missing values. A policy that does not report them at all leads to
the same only where none is missing.
-/

namespace Conform

/-- A key misses a value. -/
def Diagnostic.isMissingKey (d : Diagnostic) : Bool :=
  match d.cause with
  | .identity (.missingKeyField ..) => true
  | _ => false

/-- A diagnostic as it is reported where missing values are errors and as it is reported under
another policy. -/
structure Diagnostic.Recast (policy : AbsentKeyPolicy) (d e : Diagnostic) : Prop where
  cause : e.cause = d.cause
  path : e.path = d.path
  element : e.element = d.element
  severity : if d.isMissingKey then d.severity = .error ∧ policy.severity? = some e.severity
    else e.severity = d.severity

namespace Diagnostic

variable {policy : AbsentKeyPolicy} {d e : Diagnostic} {ds : List Diagnostic}

theorem Recast.refl (h : d.isMissingKey = false) : d.Recast policy d where
  cause := .refl _
  path := .refl _
  element := .refl _
  severity := by simp [h]

theorem Recast.about (h : d.Recast policy e) (element : Option ElementId) :
    Recast policy { d with element } { e with element } where
  cause := h.cause
  path := h.path
  element := .refl _
  severity := h.severity

/-- A policy that does not report missing values changes nothing else. -/
theorem Recast.eq (h : d.Recast policy e) (hpolicy : policy.severity? = none) : e = d := by
  obtain ⟨hcause, hpath, helement, hseverity⟩ := h
  split at hseverity
  · rw [hpolicy] at hseverity
    cases hseverity.2
  · cases d
    cases e
    simp_all

theorem eq_of_recast {es : List Diagnostic} (h : List.Forall₂ (Recast policy) ds es)
    (hpolicy : policy.severity? = none) : es = ds := by
  induction h with
  | nil => rfl
  | cons hd _ ih => rw [hd.eq hpolicy, ih]

theorem forall₂_recast (h : ∀ d ∈ ds, d.isMissingKey = false) :
    List.Forall₂ (Recast policy) ds ds :=
  List.forall₂_same.2 fun d hd => .refl (h d hd)

end Diagnostic

/-- What is found in an element where missing values are errors and under another policy. -/
inductive Finding.Recast (policy : AbsentKeyPolicy) : Finding → Finding → Prop
  | tuple {t : LocatedTuple} : Recast policy (.tuple t) (.tuple t)
  | problem {d e : Diagnostic} : d.Recast policy e → Recast policy (.problem d) (.problem e)
  | nothing : Recast policy .nothing .nothing

/-- Findings that differ in severity alone have the same tuples. -/
theorem Finding.filterMap_recast {policy : AbsentKeyPolicy} {fs gs : List Finding}
    (h : List.Forall₂ (Finding.Recast policy) fs gs) :
    gs.filterMap tuple? = fs.filterMap tuple? ∧
      List.Forall₂ (Diagnostic.Recast policy) (fs.filterMap problem?) (gs.filterMap problem?) := by
  induction h with
  | nil => exact ⟨rfl, .nil⟩
  | cons hfinding _ ih =>
      obtain ⟨htuples, hproblems⟩ := ih
      cases hfinding with
      | tuple => exact ⟨congrArg (List.cons _) htuples, hproblems⟩
      | problem hd => exact ⟨htuples, .cons hd hproblems⟩
      | nothing => exact ⟨htuples, hproblems⟩

namespace Rule

variable {r : Rule} {policy : AbsentKeyPolicy} {scope e : Decoded}

/-- Every field of a key has a value in an element, or several. -/
def HasFields (r : Rule) (e : Decoded) : Prop :=
  r.declared.isKey = true → ∀ field ∈ r.fields, field.fieldValue e ≠ .ok .absent

theorem missing?_eq (t : FieldTuple) :
    r.missing? policy t = (r.missing? .error t).bind fun m =>
      policy.severity?.map fun severity => (m.1, severity) := by
  unfold missing?
  split
  · cases FieldTuple.firstAbsent? t <;> cases policy <;> rfl
  · rfl

/-- An element that has the fields of a key misses none of them. -/
theorem HasFields.missing?_eq_none (h : r.HasFields e) {t : FieldTuple}
    (ht : (r.fields.mapM fun field => field.fieldValue e) = .ok t) :
    r.missing? policy t = none := by
  unfold missing?
  split
  · rename_i hkey
    have hnone : FieldTuple.firstAbsent? t = none := by
      refine List.findIdx?_eq_none_iff.2 fun v hv => ?_
      obtain ⟨i, hi⟩ := List.mem_iff_getElem?.1 hv
      have hfield := mapM_ok ht i
      rw [hi] at hfield
      obtain ⟨field, hget, hvalue⟩ := Option.map_eq_some_iff.1 hfield
      have hne := h hkey field (List.mem_of_getElem? hget)
      cases v with
      | absent => exact absurd hvalue hne
      | _ => rfl
    rw [hnone]
    rfl
  · rfl

theorem examine_recast (h : policy.severity? = none → r.HasFields e) :
    Finding.Recast policy (r.examine .error e) (r.examine policy e) := by
  unfold examine
  cases ht : r.fields.mapM fun field => field.fieldValue e with
  | error fault =>
      obtain ⟨field, -, hvalue⟩ := mapM_error ht
      obtain rfl := Path.fieldValue_error hvalue
      exact .problem (.refl rfl)
  | ok t =>
      have hmissing : r.missing? policy t = _ := missing?_eq t
      dsimp only
      cases herror : r.missing? .error t with
      | none =>
          rw [herror] at hmissing
          rw [hmissing]
          dsimp only [Option.bind_none]
          split
          · exact .nothing
          · exact .tuple
      | some m =>
          obtain ⟨field, severity⟩ := m
          have hself : r.missing? .error t = _ := missing?_eq t
          rw [herror] at hself hmissing
          obtain rfl : severity = .error := congrArg Prod.snd (Option.some.inj hself)
          cases hpolicy : policy.severity? with
          | none =>
              rw [(h hpolicy).missing?_eq_none ht] at herror
              cases herror
          | some severity =>
              rw [hmissing, hpolicy]
              exact .problem ⟨rfl, rfl, rfl, rfl, hpolicy⟩

theorem findings_recast (h : policy.severity? = none → ∀ e ∈ r.elements scope, r.HasFields e) :
    List.Forall₂ (Finding.Recast policy) (r.findings .error scope) (r.findings policy scope) := by
  unfold findings
  cases hselected : r.selected scope with
  | error d =>
      obtain rfl := selected_error hselected
      exact .cons (.problem (.refl rfl)) .nil
  | ok es =>
      rw [List.forall₂_map_left_iff, List.forall₂_map_right_iff, List.forall₂_same]
      refine fun e he => examine_recast fun hpolicy => h hpolicy e ?_
      exact mem_elements.2 ⟨es, hselected, he⟩

theorem tuples_recast (h : policy.severity? = none → ∀ e ∈ r.elements scope, r.HasFields e) :
    r.tuples policy scope = r.tuples .error scope :=
  (Finding.filterMap_recast (findings_recast h)).1

theorem problems_recast (h : policy.severity? = none → ∀ e ∈ r.elements scope, r.HasFields e) :
    List.Forall₂ (Diagnostic.Recast policy) (r.problems .error scope) (r.problems policy scope) :=
  (Finding.filterMap_recast (findings_recast h)).2

end Rule

theorem forall₂_flatMap {α β γ : Type} {R : β → γ → Prop} {f : α → List β} {g : α → List γ}
    {as : List α} (h : ∀ a ∈ as, List.Forall₂ R (f a) (g a)) :
    List.Forall₂ R (as.flatMap f) (as.flatMap g) := by
  induction as with
  | nil => exact .nil
  | cons a as ih =>
      obtain ⟨ha, has⟩ := List.forall_mem_cons.1 h
      exact List.rel_append ha (ih has)

namespace Schema

variable {s : Schema} {policy : AbsentKeyPolicy} {scope : Decoded} {ids : List IdentityId}

/-- The fields of the keys among the constraints are there in all elements that these select. -/
def HasKeyFields (s : Schema) (ids : List IdentityId) (scope : Decoded) : Prop :=
  ∀ id ∈ ids, ∀ e ∈ (s.rule id).elements scope, (s.rule id).HasFields e

section

variable (h : policy.severity? = none → s.HasKeyFields ids scope)
include h

theorem heldAt_recast {id : IdentityId} (hid : id ∈ ids) :
    s.heldAt policy scope id = s.heldAt .error scope id := by
  unfold heldAt
  dsimp only
  rw [Rule.tuples_recast fun hpolicy => h hpolicy id hid]

theorem ownProblems_recast {id : IdentityId} (hid : id ∈ ids) :
    List.Forall₂ (Diagnostic.Recast policy) (s.ownProblems .error scope id)
      (s.ownProblems policy scope id) := by
  have hfields := fun hpolicy => h hpolicy id hid
  unfold ownProblems
  dsimp only
  rw [Rule.tuples_recast hfields]
  refine List.rel_append (Rule.problems_recast hfields) (Diagnostic.forall₂_recast fun d hd => ?_)
  split at hd
  · cases hd
  · obtain ⟨t, -, rfl⟩ := List.mem_map.1 hd
    rfl

theorem danglingReferences_recast (below : HeldTuples) {id : IdentityId} (hid : id ∈ ids) :
    s.danglingReferences policy ids scope below id =
      s.danglingReferences .error ids scope below id := by
  unfold danglingReferences
  dsimp only
  rw [Rule.tuples_recast fun hpolicy => h hpolicy id hid]
  split
  · rfl
  · split
    · rfl
    · rename_i key _
      split
      · rename_i hlisted
        have hkey : key ∈ ids := by
          simp only [Bool.and_eq_true, List.contains_iff_mem] at hlisted
          exact hlisted.1
        rw [heldAt_recast h hkey]
      · rfl

/-- A check holds the same tuples, and its problems differ in the severity of missing values. -/
theorem checkScope_recast (resolves : Bool) (below : HeldTuples) :
    (s.checkScope policy resolves ids scope below).held =
        (s.checkScope .error resolves ids scope below).held ∧
      List.Forall₂ (Diagnostic.Recast policy)
        (s.checkScope .error resolves ids scope below).problems
        (s.checkScope policy resolves ids scope below).problems := by
  constructor
  · exact List.foldl_ext _ _ _ fun held id hid => by rw [heldAt_recast h hid]
  · refine List.rel_append (forall₂_flatMap fun id hid => ownProblems_recast h hid) ?_
    have hdangling : ids.flatMap (s.danglingReferences policy ids scope below) =
        ids.flatMap (s.danglingReferences .error ids scope below) := by
      rw [List.flatMap_def, List.flatMap_def,
        List.map_congr_left fun id hid => danglingReferences_recast h below hid]
    rw [hdangling]
    refine Diagnostic.forall₂_recast fun d hd => ?_
    split at hd
    · obtain ⟨id, -, hd⟩ := List.mem_flatMap.1 hd
      obtain ⟨-, _, -, _, -, rfl⟩ := dangling_cases .error hd
      rfl
    · cases hd

end

end Schema

end Conform
