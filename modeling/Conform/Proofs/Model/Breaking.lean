import Conform.Proofs.Model.Attribution
import Conform.Proofs.Model.Hops
import Conform.Proofs.Schema.Sample
/-!
# Broken models

A child that no leaf on the way of a walk takes ends the walk and breaks the model. What comes after
it is an issue only if no leaf has its name, and the end of the children is none.
-/

namespace Conform

/-! ## Matchings between children -/

namespace Matching

variable {s : Schema}

/-- The matching after some children, the first of them at `index`. -/
def after (s : Schema) : Nat → Matching → List QName → Except Failure Matching
  | _, m, [] => .ok m
  | index, m, name :: rest =>
    match m.child s index name with
    | .error failure => .error failure
    | .ok (_, m) => after s (index + 1) m rest

theorem issues_children : ∀ (names : List QName) (index : Nat) (m : Matching),
    (children s index m names).issues =
      match after s index m names with
      | .error failure => .error failure
      | .ok m => m.finish s (index + names.length)
  | [], _, _ => rfl
  | name :: rest, index, m => by
    unfold children after
    cases m.child s index name with
    | error f => rfl
    | ok r =>
        have hlength : index + (name :: rest).length = index + 1 + rest.length := by
          rw [List.length_cons]
          omega
        rw [hlength]
        exact issues_children rest (index + 1) r.2

/-- The issues of children that no leaf of a group is for, the first child at `index`. -/
def strangers (s : Schema) (root : GroupId) : Nat → List QName → List Issue
  | _, [] => []
  | index, name :: rest =>
    (if (s.leaves root).any fun m => s.passes m name then []
      else [⟨index, .group root, 0, none⟩]) ++ strangers s root (index + 1) rest

/-- The model is broken, and its walk is over. -/
structure Broken (m : Matching) : Prop where
  isBroken : m.isBroken = true
  ended : m.walk.current = none

theorem Broken.child {m : Matching} (h : m.Broken) (index : Nat) (name : QName) :
    ∃ leaf m', m.child s index name = .ok (leaf, m') ∧ m'.Broken ∧ m'.walk = m.walk ∧
      m'.issues = m.issues ++ strangers s m.walk.root index [name] := by
  have hchild : m.child s index name = .ok (m.attributeByName s index name) := by
    simp only [Matching.child, attributeFrom, h.ended]
  rw [hchild]
  unfold attributeByName Walk.leafFor?
  cases hleaf : (s.leaves m.walk.root).find? fun leaf => s.passes leaf name with
  | none =>
      have hnone : ((s.leaves m.walk.root).any fun leaf => s.passes leaf name) = false := by
        rw [List.any_eq_false]
        exact List.find?_eq_none.1 hleaf
      exact ⟨_, _, rfl, ⟨rfl, h.ended⟩, rfl, by simp [strangers, hnone, breakAt, report]⟩
  | some leaf =>
      have hsome : ((s.leaves m.walk.root).any fun leaf => s.passes leaf name) = true := by
        have hpasses := List.find?_some hleaf
        exact List.any_eq_true.2 ⟨leaf, List.mem_of_find?_eq_some hleaf, hpasses⟩
      simp only [h.isBroken, if_true]
      exact ⟨_, _, rfl, h, rfl, by simp [strangers, hsome]⟩

/-- Once a model is broken, just the children that no leaf is for are issues. -/
theorem Broken.children : ∀ (names : List QName) {index : Nat} {m : Matching}, m.Broken →
    (children s index m names).issues = .ok (m.issues ++ strangers s m.walk.root index names)
  | [], index, m, h => by
    have hstop : m.walk.stop s = (.ok [], m.walk) := by
      unfold Walk.stop
      cases s.stepBudget <;> simp [Walk.stopFrom, Walk.isEnded, h.ended]
    simp [Matching.children, finish, hstop, bind, Except.bind, pure, Except.pure, strangers]
  | name :: rest, index, m, h => by
    obtain ⟨leaf, m', hchild, hbroken, hwalk, hissues⟩ := h.child (s := s) index name
    simp only [Matching.children, hchild]
    rw [Broken.children rest hbroken, hissues, hwalk, List.append_assoc]
    simp [strangers]

/-- A child leaves a model unbroken, or breaks it by one issue. -/
theorem attributeFrom_breaks {index : Nat} {name : QName} {leaf : Option Member} {m' : Matching} :
    ∀ {fuel : Nat} {m : Matching}, attributeFrom s index name fuel m = .ok (leaf, m') →
      m.isBroken = false → m'.walk.root = m.walk.root ∧ (m'.isBroken = false ∨
        m'.Broken ∧ ∃ first, m'.issues = m.issues ++ [first] ∧ first.index = index) := by
  intro fuel
  induction fuel with
  | zero =>
      intro m h
      cases h
  | succ fuel ih =>
      intro m h hbroken
      simp only [attributeFrom] at h
      split at h
      · rename_i hended
        simp only [attributeByName, hbroken] at h
        split at h
        · cases h
          exact ⟨rfl, .inr ⟨⟨rfl, hended⟩, _, rfl, rfl⟩⟩
        · cases h
          exact ⟨rfl, .inr ⟨⟨rfl, hended⟩, _, rfl, rfl⟩⟩
      · have hroot := m.walk.root_advance (s := s)
        split at h
        · have hroot := hroot true
          split at h <;> rename_i hadvance <;> rw [hadvance] at hroot <;> cases h
          exact ⟨hroot, .inl hbroken⟩
        · have hroot := hroot false
          split at h <;> rename_i hadvance <;> rw [hadvance] at hroot
          · obtain ⟨hroot', hcases⟩ := ih h hbroken
            exact ⟨hroot'.trans hroot, hcases⟩
          · cases h
            exact ⟨hroot, .inr ⟨⟨rfl, rfl⟩, _, rfl, rfl⟩⟩
          · cases h

/-- The leaves take their children without a violation: a child is an issue only if it breaks the
model. -/
def takesQuietly (s : Schema) : Nat → Matching → List QName → Bool
  | _, _, [] => true
  | index, m, name :: rest =>
    match m.child s index name with
    | .error _ => true
    | .ok (_, m') => m'.isBroken || m'.issues = m.issues && takesQuietly s (index + 1) m' rest

/-- Where the issues of some children come from, the first child at `index`. -/
inductive Traced (s : Schema) (index : Nat) (m : Matching) (names : List QName)
    (issues : List Issue) : Prop
  /-- No child is an issue: all of them come from the end of the walk. -/
  | stopped {m' : Matching} {violations : List Violation} :
      after s index m names = .ok m' → (m'.walk.stop s).1 = .ok violations →
      issues = violations.map (Issue.ofViolation (index + names.length)) → Traced s index m names issues
  /-- The first child that is an issue breaks the model. Behind it, just the children that no leaf is
  for are issues, each once, and the end of the children is none. -/
  | broken {before rest : List QName} {name : QName} {first : Issue} :
      names = before ++ name :: rest → first.index = index + before.length →
      issues = first :: strangers s m.walk.root (index + before.length + 1) rest →
      Traced s index m names issues

/-- If no leaf takes a child with a violation, the first child that is an issue breaks the model. -/
theorem traced_of_takesQuietly {issues : List Issue} : ∀ {names : List QName} {index : Nat}
    {m : Matching}, takesQuietly s index m names = true → m.isBroken = false → m.issues = [] →
    (children s index m names).issues = .ok issues → Traced s index m names issues := by
  intro names
  induction names with
  | nil =>
      intro index m _ _ hnone h
      simp only [children, finish, hnone, bind, Except.bind, pure, Except.pure] at h
      split at h
      · cases h
      rename_i violations hstop
      exact .stopped rfl hstop (Except.ok.inj h).symm
  | cons name rest ih =>
      intro index m hquiet hbroken hnone h
      simp only [children] at h
      split at h
      · cases h
      rename_i leaf m' hchild
      obtain ⟨hroot, hcases⟩ := attributeFrom_breaks hchild hbroken
      rcases hcases with hunbroken | ⟨hbroken', first, hfirst, hindex⟩
      · obtain ⟨hsame, hquiet'⟩ : m'.issues = m.issues ∧
            takesQuietly s (index + 1) m' rest = true := by
          simpa [takesQuietly, hchild, hunbroken] using hquiet
        cases ih hquiet' hunbroken (hsame.trans hnone) h with
        | stopped hafter hstop hissues =>
            refine .stopped ?_ hstop ?_
            · simp only [after, hchild, hafter]
            · rw [hissues, List.length_cons, Nat.add_right_comm, Nat.add_assoc]
        | @broken before rest' name' first hnames hindex hissues =>
            have hnames' : name :: rest = (name :: before) ++ name' :: rest' := by
              rw [hnames, List.cons_append]
            have hindex' : first.index = index + (name :: before).length := by
              rw [hindex, List.length_cons]
              omega
            refine .broken hnames' hindex' ?_
            rw [hissues, hroot, List.length_cons, Nat.add_right_comm index 1, Nat.add_assoc index]
      · have hrest : (children s (index + 1) m' rest).issues =
            .ok (m'.issues ++ strangers s m'.walk.root (index + 1) rest) :=
          Broken.children rest hbroken'
        rw [show (children s (index + 1) m' rest).issues = .ok issues from h, hfirst, hnone,
          hroot] at hrest
        exact .broken (List.nil_append _).symm hindex (Except.ok.inj hrest)

end Matching

namespace Schema

open Matching

variable {s : Schema} {root : GroupId} {names : List QName} {start : Matching} {issues : List Issue}

end Schema

/-- A choice of one optional `a`, and then an optional `b`. -/
def breakingSample : Components :=
  ((Components.withElements .v10 [("a", .optional), ("b", .optional)]).withGroup .choice .once
    [.element ⟨0⟩]).withGroup .sequence .once [.group ⟨0⟩, .element ⟨1⟩]

/-- Before the first child the walk stands on `a`. -/
def breakingStart : Matching :=
  ⟨⟨⟨1⟩, .v10, ⟨⟨0⟩, [], false⟩, [⟨⟨1⟩, [.element ⟨1⟩], false⟩], .zero, .zero,
    some (.element ⟨0⟩)⟩, false, []⟩

end Conform
