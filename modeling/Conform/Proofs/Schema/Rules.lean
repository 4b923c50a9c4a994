import Conform.Proofs.Schema.Built
/-!
# References between identity constraints

The rules of a built schema stand for its identity constraints one by one, and a reference leads
from a keyref to a key or a unique.
-/

namespace Conform

/-- A list goes through a computation if each of its members does, place by place. -/
theorem mapM_ok {ε α β : Type} {f : α → Except ε β} :
    ∀ {xs : List α} {ys : List β}, xs.mapM f = .ok ys →
      ∀ i : Nat, xs[i]?.map f = ys[i]?.map Except.ok
  | [], ys, h, i => by
    obtain rfl : [] = ys := Except.ok.inj h
    rfl
  | x :: xs, ys, h, i => by
    rw [List.mapM_cons] at h
    simp only [bind, Except.bind, pure, Except.pure] at h
    split at h
    · cases h
    rename_i y hy
    split at h
    · cases h
    rename_i rest hrest
    obtain rfl : y :: rest = ys := Except.ok.inj h
    cases i with
    | zero => simp [hy]
    | succ i => simpa using mapM_ok hrest i

theorem Constraint.compile_ok {c : Constraint} {refers : Option IdentityId} {r : Rule}
    (h : c.compile refers = .ok r) : r.declared = c ∧ r.refers = refers := by
  unfold compile at h
  dsimp only at h
  split at h
  · rename_i rule hrule
    simp only [bind, Except.bind, pure, Except.pure] at hrule
    split at hrule
    · cases hrule
    split at hrule
    · cases hrule
    cases hrule
    cases h
    exact ⟨rfl, rfl⟩
  · cases h

namespace Schema

variable {s : Schema}

/-- A rule is made of the constraint at its handle and of what that refers to. -/
theorem Built.rule_eq (h : s.Built) (id : IdentityId) :
    (s.rule id).declared = s.identity id ∧
      s.referred (s.identity id) = .ok (s.rule id).refers := by
  obtain ⟨c, -, hbuild⟩ := h
  obtain ⟨rfl, -, -, -, -, -, ⟨referring, hreferring, hrules⟩⟩ := build_ok hbuild
  have hrefers := mapM_ok hreferring id.index
  have hrule := mapM_ok hrules id.index
  unfold rule Components.identity
  rw [← Array.getElem?_toList, ← Array.getElem?_toList]
  cases hc : s.identities.toList[id.index]? with
  | none =>
      -- no constraint, no rule: both are the usual ones, which refer to nothing
      rw [hc] at hrefers
      cases hreferred : referring[id.index]? with
      | some r => simp [hreferred] at hrefers
      | none =>
          rw [hreferred] at hrule
          cases hr : s.rules.toList[id.index]? with
          | some r => simp [hr] at hrule
          | none => exact ⟨rfl, rfl⟩
  | some i =>
      rw [hc] at hrefers
      cases hreferred : referring[id.index]? with
      | none => simp [hreferred] at hrefers
      | some r =>
          rw [hreferred] at hrule
          cases hr : s.rules.toList[id.index]? with
          | none => simp [hr] at hrule
          | some rule =>
              simp only [hreferred, hr, Option.map_some, Option.some.injEq] at hrefers hrule
              obtain ⟨hdeclared, hresolved⟩ := Constraint.compile_ok hrule
              simp only [bind, Except.bind, pure, Except.pure] at hrefers
              split at hrefers
              · cases hrefers
              rename_i refers hok
              cases hrefers
              exact ⟨hdeclared, hok.trans (congrArg Except.ok hresolved.symm)⟩

/-- What is referred to is a key or a unique, and what refers is a keyref. -/
theorem Built.isKeyref_of_refers (h : s.Built) {id key : IdentityId}
    (hrefers : (s.rule id).refers = some key) :
    (s.rule id).declared.isKeyref = true ∧ (s.rule key).declared.isKeyref = false := by
  obtain ⟨hdeclared, hreferred⟩ := h.rule_eq id
  rw [(h.rule_eq key).1, hdeclared]
  rw [hrefers, Components.referred] at hreferred
  split at hreferred
  · rename_i hkind
    split at hreferred
    · cases hreferred
    · dsimp only at hreferred
      split at hreferred
      · cases hreferred
      rename_i hkey
      split at hreferred
      · cases hreferred
      cases hreferred
      exact ⟨by simp only [Constraint.isKeyref, hkind], by simpa using hkey⟩
  · cases hreferred

end Schema

end Conform
