import Conform.Identity.Check
import Conform.Proofs.Listing
/-!
# Constraints and defaults

The defaults of an element may stand among its attributes and in its text, or only be recorded beside
them. Identity constraints take the values of their fields from both, so they find the same in a tree
whether its defaults are filled in or not.
-/

namespace Conform

/-! ## Defaults filled in -/

namespace Decoded

/-- The element with its defaults behind its attributes, and in place of a text that it lacks. -/
def filled (d : Decoded) : Decoded :=
  { d with
    attributes := d.attributes.followedBy d.attributeDefaults
    text := d.text.or d.defaultValue }

mutual

/-- The tree with the defaults of all elements that have a declaration filled in. -/
def withDefaults : Decoded → Decoded
  | d@⟨_, _, _, _, children, _, declaration, _, _⟩ =>
    { if declaration.isSome then d.filled else d with children := withDefaultsAll children }

/-- The trees with their defaults filled in. -/
def withDefaultsAll : List Decoded → List Decoded
  | [] => []
  | d :: rest => d.withDefaults :: withDefaultsAll rest

end

theorem withDefaultsAll_eq_map : ∀ ds : List Decoded, withDefaultsAll ds = ds.map withDefaults
  | [] => rfl
  | _ :: rest => congrArg (_ :: ·) (withDefaultsAll_eq_map rest)

theorem withDefaults_eq (d : Decoded) : d.withDefaults =
    { if d.declaration.isSome then d.filled else d with
      children := d.children.map withDefaults } := by
  obtain ⟨tag, path, attributes, text, children, isNil, declaration, defaults, default⟩ := d
  rw [withDefaults, withDefaultsAll_eq_map]

variable (d : Decoded)

/-- The attributes and defaults are the attributes with the defaults behind them. -/
theorem allAttributes_eq :
    d.allAttributes = (d.attributes.followedBy d.attributeDefaults).entries := rfl

@[simp] theorem allAttributes_filled : d.filled.allAttributes = d.allAttributes := by
  rw [allAttributes_eq, allAttributes_eq]
  exact congrArg Listing.entries (Listing.followedBy_followedBy ..)

@[simp] theorem typedValue_filled : d.filled.typedValue = d.typedValue := by
  show (if d.isNil then none else (d.text.or d.defaultValue).or d.defaultValue) = _
  unfold typedValue
  cases d.text <;> cases d.defaultValue <;> rfl

@[simp] theorem children_withDefaults : d.withDefaults.children = d.children.map withDefaults := by
  rw [withDefaults_eq]

@[simp] theorem tag_withDefaults : d.withDefaults.tag = d.tag := by
  rw [withDefaults_eq]
  split <;> rfl

@[simp] theorem path_withDefaults : d.withDefaults.path = d.path := by
  rw [withDefaults_eq]
  split <;> rfl

@[simp] theorem isNil_withDefaults : d.withDefaults.isNil = d.isNil := by
  rw [withDefaults_eq]
  split <;> rfl

@[simp] theorem allAttributes_withDefaults : d.withDefaults.allAttributes = d.allAttributes := by
  rw [withDefaults_eq]
  split
  · exact d.allAttributes_filled
  · rfl

@[simp] theorem typedValue_withDefaults : d.withDefaults.typedValue = d.typedValue := by
  rw [withDefaults_eq]
  split
  · exact d.typedValue_filled
  · rfl

end Decoded

/-! ## Selected nodes -/

namespace Located

/-- The element with the defaults filled in, at its place. -/
def withDefaults (l : Located) : Located := ⟨l.place, l.element.withDefaults⟩

theorem childrenFrom_withDefaults (place : List Nat) : ∀ (i : Nat) (ds : List Decoded),
    childrenFrom place i (ds.map Decoded.withDefaults) = (childrenFrom place i ds).map withDefaults
  | _, [] => rfl
  | i, _ :: rest => congrArg (_ :: ·) (childrenFrom_withDefaults place (i + 1) rest)

theorem children_withDefaults (l : Located) :
    l.withDefaults.children = l.children.map withDefaults := by
  show childrenFrom l.place 0 l.element.withDefaults.children = _
  rw [Decoded.children_withDefaults, childrenFrom_withDefaults]
  rfl

theorem below_eq (place : List Nat) (d : Decoded) :
    below place d = ⟨place, d⟩ :: belowAll place 0 d.children := by
  obtain ⟨tag, path, attributes, text, children, isNil, declaration, defaults, default⟩ := d
  rw [below]

mutual

theorem below_withDefaults (place : List Nat) : ∀ d : Decoded,
    below place d.withDefaults = (below place d).map withDefaults
  | d@⟨_, _, _, _, children, _, _, _, _⟩ => by
    rw [below_eq, below_eq, Decoded.children_withDefaults, belowAll_withDefaults place 0 children]
    rfl

theorem belowAll_withDefaults (place : List Nat) : ∀ (i : Nat) (ds : List Decoded),
    belowAll place i (ds.map Decoded.withDefaults) = (belowAll place i ds).map withDefaults
  | _, [] => rfl
  | i, d :: rest => by
    rw [List.map_cons, belowAll, belowAll, below_withDefaults (place ++ [i]) d,
      belowAll_withDefaults place (i + 1) rest, List.map_append]

end

end Located

namespace Node

/-- The node in the tree with the defaults filled in. -/
def withDefaults : Node → Node
  | element l => element l.withDefaults
  | onAttribute l name value => onAttribute l.withDefaults name value

@[simp] theorem typedValue_withDefaults (n : Node) : n.withDefaults.typedValue = n.typedValue := by
  cases n with
  | element l => exact l.element.typedValue_withDefaults
  | onAttribute => rfl

@[simp] theorem key_withDefaults (n : Node) : n.withDefaults.key = n.key := by
  cases n <;> rfl

end Node

theorem Located.attributesPassing_withDefaults (l : Located) (t : Path.NameTest) :
    l.withDefaults.attributesPassing t = (l.attributesPassing t).map Node.withDefaults := by
  unfold Located.attributesPassing
  rw [show l.withDefaults.element.allAttributes = l.element.allAttributes from
    l.element.allAttributes_withDefaults, List.map_map]
  rfl

namespace Path

theorem follow_withDefaults : ∀ (steps : List (Step NameTest)) (here : List Located),
    follow steps (here.map Located.withDefaults) = (follow steps here).map Node.withDefaults
  | [], here => by
    rw [follow, follow, List.map_map, List.map_map]
    rfl
  | .self :: rest, here => follow_withDefaults rest here
  | .descendants :: rest, here => by
    rw [follow, follow, ← follow_withDefaults rest, List.flatMap_map, List.map_flatMap]
    exact congrArg (fun f => follow rest (here.flatMap f))
      (funext fun l => Located.below_withDefaults l.place l.element)
  | .child t :: rest, here => by
    rw [follow, follow, ← follow_withDefaults rest, List.flatMap_map, List.map_flatMap]
    refine congrArg (fun f => follow rest (here.flatMap f)) (funext fun l => ?_)
    rw [Located.children_withDefaults, List.filter_map]
    refine congrArg _ (List.filter_congr fun c _ => ?_)
    exact congrArg t.passes c.element.tag_withDefaults
  | .onAttributes t :: _, here => by
    rw [follow, follow, List.flatMap_map, List.map_flatMap]
    exact congrArg here.flatMap (funext fun l => l.attributesPassing_withDefaults t)

theorem union_withDefaults (nodes more : List Node) :
    union (nodes.map Node.withDefaults) (more.map Node.withDefaults) =
      (union nodes more).map Node.withDefaults := by
  unfold union
  induction more generalizing nodes with
  | nil => rfl
  | cons n more ih =>
      rw [List.map_cons, List.foldl_cons, List.foldl_cons, ← ih]
      refine congrArg (List.foldl _ · _) ?_
      simp only [List.any_map, Function.comp_def, Node.key_withDefaults]
      split
      · rfl
      · rw [List.map_append]
        rfl

/-- A path selects the same nodes, but for the defaults in them. -/
theorem select_withDefaults (p : Path) (context : Decoded) :
    p.select context.withDefaults = (p.select context).map Node.withDefaults := by
  have hfold : ∀ (branches : List (List (Step NameTest))) (found : List Node),
      branches.foldl (fun found steps => union found (follow steps [⟨[], context.withDefaults⟩]))
          (found.map Node.withDefaults) =
        (branches.foldl (fun found steps => union found (follow steps [⟨[], context⟩])) found).map
          Node.withDefaults := by
    intro branches
    induction branches with
    | nil => exact fun _ => rfl
    | cons steps branches ih =>
        intro found
        rw [List.foldl_cons, List.foldl_cons, ← ih, ← union_withDefaults, ← follow_withDefaults]
        rfl
  exact hfold p.branches []

/-- A field has the same value. -/
@[simp] theorem fieldValue_withDefaults (field : Path) (e : Decoded) :
    field.fieldValue e.withDefaults = field.fieldValue e := by
  unfold fieldValue
  rw [select_withDefaults]
  rcases field.select e with _ | ⟨n, _ | ⟨n', rest⟩⟩
  · rfl
  · simp only [List.map_cons, List.map_nil, Node.typedValue_withDefaults]
  · rfl

end Path

/-! ## Checks -/

namespace Rule

variable (r : Rule) (policy : AbsentKeyPolicy)

theorem selectedElement_withDefaults (scope : Decoded) (n : Node) :
    selectedElement scope.withDefaults n.withDefaults =
      (selectedElement scope n).map Decoded.withDefaults := by
  cases n with
  | element l => rfl
  | onAttribute =>
      show Except.error _ = Except.error _
      rw [scope.path_withDefaults]

theorem selected_withDefaults (scope : Decoded) :
    r.selected scope.withDefaults = (r.selected scope).map (List.map Decoded.withDefaults) := by
  unfold selected
  rw [Path.select_withDefaults]
  induction r.selector.select scope with
  | nil => rfl
  | cons n nodes ih =>
      rw [List.map_cons, List.mapM_cons, List.mapM_cons, ih, selectedElement_withDefaults]
      cases selectedElement scope n with
      | error f => rfl
      | ok e =>
          cases nodes.mapM (selectedElement scope) <;> rfl

@[simp] theorem examine_withDefaults (e : Decoded) :
    r.examine policy e.withDefaults = r.examine policy e := by
  unfold examine
  simp only [Path.fieldValue_withDefaults, Decoded.path_withDefaults, Decoded.isNil_withDefaults]

/-- A constraint finds the same whether defaults are filled in or not. -/
@[simp] theorem findings_withDefaults (scope : Decoded) :
    r.findings policy scope.withDefaults = r.findings policy scope := by
  unfold findings
  rw [selected_withDefaults]
  cases r.selected scope with
  | error f => rfl
  | ok elements =>
      show List.map _ (List.map _ elements) = _
      rw [List.map_map]
      exact List.map_congr_left fun e _ => r.examine_withDefaults policy e

@[simp] theorem tuples_withDefaults (scope : Decoded) :
    r.tuples policy scope.withDefaults = r.tuples policy scope := by
  rw [tuples, tuples, findings_withDefaults]

@[simp] theorem problems_withDefaults (scope : Decoded) :
    r.problems policy scope.withDefaults = r.problems policy scope := by
  rw [problems, problems, findings_withDefaults]

end Rule

/-- The constraints of an element have the same problems and hold the same tuples. -/
@[simp] theorem Schema.checkScope_withDefaults (s : Schema) (policy : AbsentKeyPolicy)
    (resolves : Bool) (ids : List IdentityId) (scope : Decoded) (below : HeldTuples) :
    s.checkScope policy resolves ids scope.withDefaults below =
      s.checkScope policy resolves ids scope below := by
  have hown : s.ownProblems policy scope.withDefaults = s.ownProblems policy scope := by
    funext id
    simp only [ownProblems, Rule.problems_withDefaults, Rule.tuples_withDefaults]
  have hheld : s.heldAt policy scope.withDefaults = s.heldAt policy scope := by
    funext id
    simp only [heldAt, Rule.tuples_withDefaults]
  have hdangling : s.danglingReferences policy ids scope.withDefaults below =
      s.danglingReferences policy ids scope below := by
    funext id
    simp only [danglingReferences, hheld, Rule.tuples_withDefaults, Decoded.path_withDefaults]
  simp only [checkScope, hown, hheld, hdangling]

end Conform
