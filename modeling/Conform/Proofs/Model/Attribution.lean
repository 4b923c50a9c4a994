import Conform.Model.Attribution
import Mathlib.Tactic.Common
/-!
# Attribution of children, child by child

Two ways from what a walk does at one child to what becomes of all children. A property of walks that
violations alone break holds at the end of a content without issues. And a residual language that
every step of a walk follows tells the contents without issues from the others.
-/

namespace Conform

/-- A relation between a walk and the children before it that steps without a violation keep. -/
structure Walk.Kept (s : Schema) (Inv : Walk → List QName → Prop) : Prop where
  take : ∀ {w w' : Walk} {u : List QName} {m : Member} {n : QName}, Inv w u →
    w.current = some m → s.passes m n = true → w.advance s true = (.ok [], w') → Inv w' (u ++ [n])
  pass : ∀ {w w' : Walk} {u : List QName} {m : Member}, Inv w u → w.current = some m →
    w.advance s false = (.ok [], w') → Inv w' u

namespace Matching

variable {s : Schema}

/-- A child takes no issue back. -/
theorem attributeFrom_issues {index : Nat} {name : QName} {leaf : Option Member} {m' : Matching} :
    ∀ {fuel : Nat} {m : Matching}, attributeFrom s index name fuel m = .ok (leaf, m') →
      m.issues <+: m'.issues := by
  intro fuel
  induction fuel with
  | zero =>
      intro m h
      cases h
  | succ fuel ih =>
      intro m h
      simp only [attributeFrom] at h
      split at h
      · simp only [attributeByName] at h
        split at h
        · cases h
          exact List.prefix_append _ _
        · split at h <;> cases h
          · exact List.prefix_rfl
          · exact List.prefix_append _ _
      · split at h
        · split at h <;> cases h
          exact List.prefix_append _ _
        · split at h
          · have hrest := ih h
            exact hrest
          · cases h
            exact List.prefix_append _ _
          · cases h

/-- The children take no issue back. -/
theorem children_issues {issues : List Issue} : ∀ {names : List QName} {index : Nat} {m : Matching},
    (children s index m names).issues = .ok issues → m.issues <+: issues := by
  intro names
  induction names with
  | nil =>
      intro index m h
      simp only [children, finish, bind, Except.bind, pure, Except.pure] at h
      split at h <;> cases h
      exact List.prefix_append _ _
  | cons name rest ih =>
      intro index m h
      simp only [children] at h
      split at h
      · cases h
      rename_i hchild
      exact (attributeFrom_issues hchild).trans (ih h)

/-- The end of the walk takes no violation back. -/
theorem stopFrom_violations {w' : Walk} {all : List Violation} : ∀ {fuel : Nat}
    {violations : List Violation} {w : Walk},
    Walk.stopFrom s fuel violations w = (.ok all, w') → violations <+: all := by
  intro fuel
  induction fuel with
  | zero =>
      intro violations w h
      simp only [Walk.stopFrom] at h
      split at h <;> cases h
      exact List.prefix_rfl
  | succ fuel ih =>
      intro violations w h
      simp only [Walk.stopFrom] at h
      split at h
      · cases h
        exact List.prefix_rfl
      split at h
      · exact (List.prefix_append _ _).trans (ih h)
      · cases h

/-! ## Invariants -/

section

variable {Inv : Walk → List QName → Prop}

/-- A child without an issue leaves the invariant. -/
theorem attributeFrom_inv
    (hkept : Walk.Kept s Inv)
    {index : Nat} {name : QName} {leaf : Option Member} {m' : Matching} {u : List QName}
    (hissues : m'.issues = []) : ∀ {fuel : Nat} {m : Matching},
      attributeFrom s index name fuel m = .ok (leaf, m') → m.isBroken = false →
      Inv m.walk u → Inv m'.walk (u ++ [name]) ∧ m'.isBroken = false := by
  intro fuel
  induction fuel with
  | zero =>
      intro m h
      cases h
  | succ fuel ih =>
      intro m h hbroken hinv
      simp only [attributeFrom] at h
      split at h
      · simp only [attributeByName, hbroken] at h
        split at h <;> cases h <;> simp [breakAt, report] at hissues
      rename_i m₁ hcurrent
      split at h
      · rename_i hpasses
        split at h <;> cases h
        rename_i violations walk hadvance
        have hnone : violations = [] := by
          have := List.append_eq_nil_iff.1 hissues
          exact List.map_eq_nil_iff.1 this.2
        subst hnone
        exact ⟨hkept.take hinv hcurrent hpasses hadvance, hbroken⟩
      · split at h
        · rename_i hadvance
          exact ih h hbroken (hkept.pass hinv hcurrent hadvance)
        · cases h
          simp [breakAt, report] at hissues
        · cases h

/-- The end of the walk without a violation leaves the invariant. -/
theorem stopFrom_inv
    (hkept : Walk.Kept s Inv)
    {r : Except Failure (List Violation) × Walk} {u : List QName} (hr : r.1 = .ok []) :
    ∀ {fuel : Nat} {violations : List Violation} {w : Walk},
      Walk.stopFrom s fuel violations w = r → Inv w u → ∃ w', Inv w' u ∧ w'.current = none := by
  intro fuel
  induction fuel with
  | zero =>
      intro violations w h hinv
      by_cases hended : w.isEnded = true
      · exact ⟨w, hinv, Option.isNone_iff_eq_none.1 hended⟩
      · simp only [Walk.stopFrom, hended] at h
        rw [← h] at hr
        cases hr
  | succ fuel ih =>
      intro violations w h hinv
      simp only [Walk.stopFrom, Walk.isEnded] at h
      cases hcurrent : w.current with
      | none => exact ⟨w, hinv, hcurrent⟩
      | some m =>
          simp only [hcurrent, Option.isNone_some, Bool.false_eq_true, if_false] at h
          split at h
          · rename_i more walk hadvance
            have hgrow : violations ++ more <+: [] := by
              obtain ⟨result, walk'⟩ := r
              cases hr
              exact stopFrom_violations h
            rw [List.prefix_nil, List.append_eq_nil_iff] at hgrow
            rw [hgrow.2] at hadvance
            exact ih h (hkept.pass hinv hcurrent hadvance)
          · rw [← h] at hr
            cases hr

/-- Children without an issue leave the invariant, up to the end of the walk. -/
theorem children_inv
    (hkept : Walk.Kept s Inv) :
    ∀ {names : List QName} {index : Nat} {m : Matching} {u : List QName},
      (children s index m names).issues = .ok [] → m.isBroken = false → Inv m.walk u →
      ∃ w', Inv w' (u ++ names) ∧ w'.current = none := by
  intro names
  induction names with
  | nil =>
      intro index m u h hbroken hinv
      rw [List.append_nil]
      simp only [children, finish, bind, Except.bind, pure, Except.pure] at h
      split at h
      · cases h
      rename_i violations hstop
      have hnone : violations = [] := by
        have := (List.append_eq_nil_iff.1 (Except.ok.inj h)).2
        exact List.map_eq_nil_iff.1 this
      rw [hnone] at hstop
      exact stopFrom_inv hkept hstop rfl hinv
  | cons name rest ih =>
      intro index m u h hbroken hinv
      simp only [children] at h
      split at h
      · cases h
      rename_i leaf m' hchild
      have hissues : m'.issues = [] := List.prefix_nil.1 (children_issues h)
      obtain ⟨hinv', hbroken'⟩ := attributeFrom_inv hkept hissues hchild hbroken hinv
      obtain ⟨w', hw', hended⟩ := ih h hbroken' hinv'
      refine ⟨w', ?_, hended⟩
      simpa using hw'

end

end Matching

/-- A property that a walk has at first, and that steps without a violation keep, holds at the end
of a content without issues. -/
theorem Schema.inv_of_issues_eq_nil {s : Schema} {root : GroupId}
    {Inv : Walk → List QName → Prop}
    (hstart : ∀ {w : Walk}, Walk.start s root s.version = .ok w → Inv w [])
    (hkept : Walk.Kept s Inv)
    {names : List QName} (h : s.issues root names = .ok []) :
    ∃ w, Inv w names ∧ w.current = none := by
  simp only [issues, attribution, Matching.start, bind, Except.bind, pure, Except.pure] at h
  split at h
  · cases h
  rename_i a ha
  split at ha
  · cases ha
  rename_i m hm
  split at hm
  · cases hm
  rename_i w hw
  cases hm
  cases ha
  exact Matching.children_inv hkept h rfl (hstart hw)

/-! ## Residual languages -/

/-- What is still to come after a walk, as every step of the walk follows it. `Inv` relates the walk
to the children that are left, and no more than `todo` leaves are passed without a child. After a
violation no child is left to the walk. -/
structure Walk.Recognizes (s : Schema) (Inv Rest : Walk → List QName → Prop)
    (todo : Walk → Nat) : Prop where
  ended : ∀ {w : Walk} {ns : List QName}, Inv w ns → w.current = none → (Rest w ns ↔ ns = [])
  take : ∀ {w : Walk} {m : Member} {n : QName} {ns : List QName}, Inv w (n :: ns) →
    w.current = some m → s.passes m n = true → ∃ violations w',
      w.advance s true = (.ok violations, w') ∧ Inv w' ns ∧
        (Rest w (n :: ns) ↔ violations = [] ∧ Rest w' ns)
  pass : ∀ {w : Walk} {m : Member} {ns : List QName}, Inv w ns → w.current = some m →
    (∀ n ∈ ns.head?, s.passes m n = false) → ∃ violations w',
      w.advance s false = (.ok violations, w') ∧ (violations = [] → Inv w' ns) ∧ Inv w' [] ∧
        todo w' < todo w ∧ (Rest w ns ↔ violations = [] ∧ Rest w' ns)
  budget : ∀ {w : Walk} {ns : List QName}, Inv w ns → todo w ≤ s.stepBudget

/-- A walk comes to where it keeps the invariant, with these violations, and `P` is what is still to
come there. -/
def Walk.Arrives (Inv Rest : Walk → List QName → Prop) (todo : Walk → Nat) (P : Prop)
    (ns : List QName) (bound : Nat) (violations : List Violation)
    (r : Except Failure (List Violation) × Walk) : Prop :=
  ∃ w, r = (.ok violations, w) ∧ Inv w ns ∧ todo w ≤ bound ∧ (P ↔ Rest w ns)

namespace Matching

variable {s : Schema} {Inv Rest : Walk → List QName → Prop} {todo : Walk → Nat}

/-- Once the walk is over, every further child of an unbroken model is an issue. -/
theorem children_ended : ∀ (names : List QName) (index : Nat) {m : Matching},
    m.walk.current = none → ∃ more, (children s index m names).issues = .ok (m.issues ++ more) ∧
      (m.isBroken = false → (more = [] ↔ names = [])) := by
  intro names
  induction names with
  | nil =>
      intro index m hended
      have hstop : m.walk.stop s = (.ok [], m.walk) := by
        unfold Walk.stop
        cases s.stepBudget <;> simp [Walk.stopFrom, Walk.isEnded, hended]
      refine ⟨[], ?_, by simp⟩
      simp [children, finish, hstop, bind, Except.bind, pure, Except.pure]
  | cons name rest ih =>
      intro index m hended
      have hchild : m.child s index name = .ok (m.attributeByName s index name) := by
        simp only [child, attributeFrom, hended]
      have hwalk : (m.attributeByName s index name).2.walk.current = none := by
        simp only [attributeByName]
        split
        · exact hended
        · split <;> exact hended
      obtain ⟨new, hnew, hbroken⟩ : ∃ new,
          (m.attributeByName s index name).2.issues = m.issues ++ new ∧
            (m.isBroken = false → new ≠ []) := by
        simp only [attributeByName]
        split
        · exact ⟨_, rfl, by simp⟩
        · split
          · rename_i hbroken
            exact ⟨[], by simp, by simp [hbroken]⟩
          · exact ⟨_, rfl, by simp⟩
      obtain ⟨more, hmore, -⟩ := ih (index + 1) hwalk
      refine ⟨new ++ more, ?_, ?_⟩
      · simp only [children, hchild]
        rw [hmore, hnew, List.append_assoc]
      · intro hunbroken
        simp [hbroken hunbroken]

/-- The end of a walk finds a violation just if nothing is still to come. -/
theorem stopFrom_recognizes (h : Walk.Recognizes s Inv Rest todo) :
    ∀ {fuel : Nat} (violations : List Violation) {w : Walk}, Inv w [] → todo w ≤ fuel →
      ∃ more, (Walk.stopFrom s fuel violations w).1 = .ok (violations ++ more) ∧
        (more = [] ↔ Rest w []) := by
  intro fuel
  induction fuel with
  | zero =>
      intro violations w hinv htodo
      cases hcurrent : w.current with
      | none =>
          refine ⟨[], ?_, ?_⟩
          · simp [Walk.stopFrom, Walk.isEnded, hcurrent]
          · simp [h.ended hinv hcurrent]
      | some m =>
          obtain ⟨_, _, -, -, -, hless, -⟩ := h.pass hinv hcurrent (by simp)
          omega
  | succ fuel ih =>
      intro violations w hinv htodo
      cases hcurrent : w.current with
      | none =>
          refine ⟨[], ?_, ?_⟩
          · simp [Walk.stopFrom, Walk.isEnded, hcurrent]
          · simp [h.ended hinv hcurrent]
      | some m =>
          obtain ⟨vs, w', hadvance, -, hinv', hless, hrest⟩ := h.pass hinv hcurrent (by simp)
          obtain ⟨more, hmore, hiff⟩ := ih (violations ++ vs) hinv' (by omega)
          refine ⟨vs ++ more, ?_, ?_⟩
          · simp only [Walk.stopFrom, Walk.isEnded, hcurrent, hadvance]
            rw [if_neg (by simp), hmore, List.append_assoc]
          · rw [List.append_eq_nil_iff, hiff, hrest]

/-- A child either is an issue and ends the walk, or the walk follows it. -/
theorem attributeFrom_recognizes (h : Walk.Recognizes s Inv Rest todo) (index : Nat)
    {name : QName} {ns : List QName} : ∀ {fuel : Nat} {m : Matching}, Inv m.walk (name :: ns) →
      m.isBroken = false → todo m.walk < fuel → ∃ leaf m' new,
        attributeFrom s index name fuel m = .ok (leaf, m') ∧ m'.issues = m.issues ++ new ∧
        (m'.isBroken = false ∧ Inv m'.walk ns ∧
            (Rest m.walk (name :: ns) ↔ new = [] ∧ Rest m'.walk ns) ∨
          m'.walk.current = none ∧ new ≠ [] ∧ ¬Rest m.walk (name :: ns)) := by
  intro fuel
  induction fuel with
  | zero =>
      intro m _ _ htodo
      omega
  | succ fuel ih =>
      intro m hinv hbroken htodo
      cases hcurrent : m.walk.current with
      | none =>
          have hrest := h.ended hinv hcurrent
          have hno : ¬Rest m.walk (name :: ns) := by simp [hrest]
          simp only [attributeFrom, hcurrent, attributeByName, hbroken]
          split
          · exact ⟨_, _, _, rfl, rfl, .inr ⟨hcurrent, by simp, hno⟩⟩
          · exact ⟨_, _, _, rfl, rfl, .inr ⟨hcurrent, by simp, hno⟩⟩
      | some leaf =>
          simp only [attributeFrom, hcurrent]
          by_cases hpasses : s.passes leaf name = true
          · obtain ⟨vs, w', hadvance, hinv', hrest⟩ := h.take hinv hcurrent hpasses
            rw [if_pos hpasses, hadvance]
            refine ⟨_, _, _, rfl, rfl, .inl ⟨hbroken, hinv', ?_⟩⟩
            rw [hrest, List.map_eq_nil_iff]
            rfl
          · obtain ⟨vs, w', hadvance, hinv', -, hless, hrest⟩ :=
              h.pass hinv hcurrent (by simpa using hpasses)
            rw [if_neg hpasses, hadvance]
            cases vs with
            | nil =>
                obtain ⟨leaf', m', new, hm', hissues, hcases⟩ :=
                  ih (m := { m with walk := w' }) (hinv' rfl) hbroken (by simp only; omega)
                refine ⟨leaf', m', new, hm', hissues, ?_⟩
                rw [hrest]
                simpa using hcases
            | cons v vs =>
                refine ⟨_, _, _, rfl, rfl, .inr ⟨rfl, by simp, ?_⟩⟩
                simp [hrest]

/-- The issues of children are those that are there, and more just if the children are not what is
still to come. -/
theorem children_recognizes (h : Walk.Recognizes s Inv Rest todo) :
    ∀ {names : List QName} (index : Nat) {m : Matching}, Inv m.walk names → m.isBroken = false →
      ∃ more, (children s index m names).issues = .ok (m.issues ++ more) ∧
        (more = [] ↔ Rest m.walk names) := by
  intro names
  induction names with
  | nil =>
      intro index m hinv hbroken
      obtain ⟨more, hmore, hiff⟩ :=
        stopFrom_recognizes h [] hinv (h.budget hinv)
      refine ⟨more.map (Issue.ofViolation index), ?_, ?_⟩
      · simp only [children, finish, Walk.stop, bind, Except.bind, pure, Except.pure]
        rw [hmore]
        rfl
      · rw [List.map_eq_nil_iff, hiff]
  | cons name ns ih =>
      intro index m hinv hbroken
      have hbudget := h.budget hinv
      obtain ⟨leaf, m', new, hm', hissues, hcases⟩ :=
        attributeFrom_recognizes h index hinv hbroken (Nat.lt_succ_of_le hbudget)
      have hchildren : (children s index m (name :: ns)).issues =
          (children s (index + 1) m' ns).issues := by
        simp only [children, child, hm']
      rw [hchildren]
      rcases hcases with ⟨hbroken', hinv', hrest⟩ | ⟨hended, hnew, hno⟩
      · obtain ⟨more, hmore, hiff⟩ := ih (index + 1) hinv' hbroken'
        refine ⟨new ++ more, ?_, ?_⟩
        · rw [hmore, hissues, List.append_assoc]
        · rw [List.append_eq_nil_iff, hiff, hrest]
      · obtain ⟨more, hmore, -⟩ := children_ended (s := s) ns (index + 1) hended
        refine ⟨new ++ more, ?_, ?_⟩
        · rw [hmore, hissues, List.append_assoc]
        · rw [List.append_eq_nil_iff]
          constructor
          · intro hnil
            exact absurd hnil.1 hnew
          · intro hyes
            exact absurd hyes hno

end Matching

/-- The contents without issues are what is still to come at the start. -/
theorem Schema.issues_iff_of_recognizes {s : Schema} {root : GroupId}
    {Inv Rest : Walk → List QName → Prop} {todo : Walk → Nat} {w : Walk} {names : List QName}
    (h : Walk.Recognizes s Inv Rest todo) (hstart : Walk.start s root s.version = .ok w)
    (hinv : Inv w names) :
    ∃ issues, s.issues root names = .ok issues ∧ (issues = [] ↔ Rest w names) := by
  obtain ⟨more, hmore, hiff⟩ :=
    Matching.children_recognizes h 0 (m := ⟨w, false, []⟩) hinv rfl
  refine ⟨more, ?_, hiff⟩
  simp only [issues, attribution, Matching.start, hstart, bind, Except.bind, pure, Except.pure]
  exact hmore

end Conform
