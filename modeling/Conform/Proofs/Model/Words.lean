import Conform.Schema.Components
import Mathlib.Data.List.Nodup
import Mathlib.Tactic.Common
/-!
# The words of a particle

A word is a list of element names. The words of a particle are what its occurrences may stand for,
as often as its bounds admit. The bounds are a parameter, so that wider ones can be tried.
-/

namespace Conform.Components

section

variable (c : Components) (b : Member → Occurs)

mutual

/-- Words of as many occurrences of a member as its bounds admit. -/
inductive Words : Member → List QName → Prop
  | intro {m : Member} {n : Nat} {w : List QName} :
      (b m).Admits n → Times m n w → Words m w

/-- Words of a number of occurrences of a member, one after the other. -/
inductive Times : Member → Nat → List QName → Prop
  | zero {m : Member} : Times m 0 []
  | succ {m : Member} {n : Nat} {u v : List QName} :
      Once m u → Times m n v → Times m (n + 1) (u ++ v)

/-- Words of one occurrence of a member. The members of an `all` group come in any order. -/
inductive Once : Member → List QName → Prop
  | leaf {m : Member} {n : QName} : c.passes m n = true → Once m [n]
  | sequence {g : GroupId} {w : List QName} : (c.group g).compositor = .sequence →
      Row (c.group g).members w → Once (.group g) w
  | choice {g : GroupId} {m : Member} {w : List QName} : (c.group g).compositor = .choice →
      m ∈ (c.group g).members → Words m w → Once (.group g) w
  | all {g : GroupId} {ms : List Member} {w : List QName} : (c.group g).compositor = .all →
      ms.Perm (c.group g).members → Row ms w → Once (.group g) w

/-- Words of some members, one after the other. -/
inductive Row : List Member → List QName → Prop
  | nil : Row [] []
  | cons {m : Member} {ms : List Member} {u v : List QName} :
      Words m u → Row ms v → Row (m :: ms) (u ++ v)

end

end

variable {c : Components} {b : Member → Occurs}

/-! ## Numbers of occurrences -/

theorem Times.eq_nil {m : Member} {w : List QName} (h : c.Times b m 0 w) : w = [] := by
  cases h
  rfl

theorem Once.times {m : Member} {w : List QName} (h : c.Once b m w) : c.Times b m 1 w := by
  have := Times.succ h .zero
  rwa [List.append_nil] at this

theorem Times.append {m : Member} {j : Nat} : ∀ {i : Nat} {u v : List QName},
    c.Times b m i u → c.Times b m j v → c.Times b m (i + j) (u ++ v) := by
  intro i
  induction i with
  | zero =>
      intro u v hu hv
      rw [hu.eq_nil, Nat.zero_add]
      exact hv
  | succ i ih =>
      intro u v hu hv
      cases hu with
      | succ honce hrest =>
          rw [List.append_assoc, Nat.succ_add]
          exact .succ honce (ih hrest hv)

/-- The words of some occurrences are cut between any two of them. -/
theorem Times.split {m : Member} {j : Nat} : ∀ {i : Nat} {w : List QName},
    c.Times b m (i + j) w → ∃ u v, w = u ++ v ∧ c.Times b m i u ∧ c.Times b m j v := by
  intro i
  induction i with
  | zero =>
      intro w h
      rw [Nat.zero_add] at h
      exact ⟨[], w, rfl, .zero, h⟩
  | succ i ih =>
      intro w h
      rw [Nat.succ_add] at h
      cases h with
      | succ honce hrest =>
          obtain ⟨u, v, rfl, hu, hv⟩ := ih hrest
          exact ⟨_, v, (List.append_assoc ..).symm, .succ honce hu, hv⟩

/-- A member that can be empty occurs as often as one likes. -/
theorem Times.pad {m : Member} {i j : Nat} {w : List QName} (hempty : c.Once b m [])
    (h : c.Times b m i w) (hij : i ≤ j) : c.Times b m j w := by
  obtain ⟨k, rfl⟩ := Nat.exists_eq_add_of_le hij
  induction k with
  | zero => exact h
  | succ k ih =>
      have hk := ih (Nat.le_add_right i k)
      exact .succ hempty hk

/-- Occurrences are dealt out to `r` repetitions, each as often as the bounds admit. -/
theorem Times.deal {m : Member} (hbounds : ∀ n ∈ (b m).max, (b m).min.toNat ≤ n.toNat) :
    ∀ {r k : Nat} {w : List QName}, c.Times b m k w → r * (b m).min.toNat ≤ k →
      (∀ n ∈ (b m).max, k ≤ r * n.toNat) → (r = 0 → k = 0) →
      ∃ ws : List (List QName), ws.length = r ∧ ws.flatten = w ∧ ∀ u ∈ ws, c.Words b m u := by
  intro r
  induction r with
  | zero =>
      intro k w h _ _ hzero
      rw [hzero rfl] at h
      exact ⟨[], rfl, h.eq_nil.symm, by simp⟩
  | succ r ih =>
      intro k w h hmin hmax _
      -- the first repetition takes what the others cannot
      obtain ⟨i, j, rfl, hi, hj, hjmax, hr⟩ : ∃ i j, k = i + j ∧ (b m).Admits i ∧
          r * (b m).min.toNat ≤ j ∧ (∀ n ∈ (b m).max, j ≤ r * n.toNat) ∧ (r = 0 → j = 0) := by
        rw [Nat.succ_mul] at hmin
        cases hb : (b m).max with
        | none =>
            by_cases hr : r = 0
            · subst hr
              exact ⟨k, 0, by omega, ⟨by omega, by simp [hb]⟩, by simp, by simp, by simp⟩
            · exact ⟨(b m).min.toNat, k - (b m).min.toNat, by omega, ⟨by omega, by simp [hb]⟩,
                by omega, by simp, fun h => absurd h hr⟩
        | some n =>
            have hn := hbounds n hb
            have hk := hmax n hb
            have hmul : r * (b m).min.toNat ≤ r * n.toNat := Nat.mul_le_mul_left r hn
            rw [Nat.succ_mul] at hk
            by_cases hlow : k ≤ (b m).min.toNat + r * n.toNat
            · refine ⟨(b m).min.toNat, k - (b m).min.toNat, by omega, ⟨by omega, ?_⟩, by omega, ?_, ?_⟩
              · simpa [hb] using hn
              · simp only [Option.mem_def, Option.some.injEq, forall_eq']
                omega
              · rintro rfl
                omega
            · refine ⟨k - r * n.toNat, r * n.toNat, by omega, ⟨by omega, ?_⟩, hmul, ?_, ?_⟩
              · simp only [hb, Option.mem_def, Option.some.injEq, forall_eq']
                omega
              · simp
              · rintro rfl
                omega
      obtain ⟨u, v, rfl, hu, hv⟩ := h.split
      obtain ⟨ws, hlength, hflat, hwords⟩ := ih hv hj hjmax hr
      refine ⟨u :: ws, by simp [hlength], by simp [hflat], ?_⟩
      intro x hx
      rcases List.mem_cons.1 hx with rfl | hx
      · exact .intro hi hu
      · exact hwords x hx

/-- The first occurrence with a name in it comes after empty ones. -/
theorem Times.first {m : Member} : ∀ {j : Nat} {n : QName} {w : List QName},
    c.Times b m j (n :: w) → ∃ i k u v, j = i + 1 + k ∧ w = u ++ v ∧ c.Once b m (n :: u) ∧
      c.Times b m k v ∧ (0 < i → c.Once b m []) := by
  intro j
  induction j with
  | zero =>
      intro n w h
      cases h.eq_nil
  | succ j ih =>
      intro n w h
      generalize hw : n :: w = w' at h
      cases h with
      | @succ _ _ u v honce hrest =>
          cases u with
          | nil =>
              rw [List.nil_append] at hw
              rw [← hw] at hrest
              obtain ⟨i, k, u, v, hj, hw', hfirst, hmore, -⟩ := ih hrest
              exact ⟨i + 1, k, u, v, by omega, hw', hfirst, hmore, fun _ => honce⟩
          | cons n' u =>
              obtain ⟨rfl, rfl⟩ := List.cons.inj hw
              exact ⟨0, j, u, v, by omega, rfl, honce, hrest, by simp⟩

/-- Without a name all occurrences are empty. -/
theorem Times.once_nil {m : Member} {j : Nat} (h : c.Times b m (j + 1) []) : c.Once b m [] := by
  generalize hw : ([] : List QName) = w at h
  cases h with
  | succ honce hrest =>
      obtain ⟨rfl, rfl⟩ := List.append_eq_nil_iff.1 hw.symm
      exact honce

/-! ## Leaves -/

theorem once_leaf_iff {m : Member} {b : Member → Occurs} {u : List QName}
    (hm : m.isGroup = false) : c.Once b m u ↔ ∃ n, u = [n] ∧ c.passes m n = true := by
  constructor
  · intro h
    cases h with
    | leaf hn => exact ⟨_, rfl, hn⟩
    | sequence => cases hm
    | choice => cases hm
    | all => cases hm
  · rintro ⟨n, rfl, hn⟩
    exact .leaf hn

/-- As many names as occurrences, all of which the leaf matches. -/
theorem times_leaf_iff {m : Member} {b : Member → Occurs} (hm : m.isGroup = false) :
    ∀ {k : Nat} {u : List QName},
      c.Times b m k u ↔ u.length = k ∧ ∀ n ∈ u, c.passes m n = true := by
  intro k
  induction k with
  | zero =>
      intro u
      constructor
      · intro h
        rw [h.eq_nil]
        simp
      · rintro ⟨hlength, -⟩
        rw [List.length_eq_zero_iff.1 hlength]
        exact .zero
  | succ k ih =>
      intro u
      constructor
      · intro h
        cases h with
        | succ honce hrest =>
            obtain ⟨n, rfl, hn⟩ := (once_leaf_iff hm).1 honce
            obtain ⟨hlength, hall⟩ := ih.1 hrest
            refine ⟨by simp [hlength], ?_⟩
            intro x hx
            rcases List.mem_cons.1 hx with rfl | hx
            · exact hn
            · exact hall x hx
      · rintro ⟨hlength, hall⟩
        cases u with
        | nil => cases hlength
        | cons n u =>
            have hrest := ih.2 ⟨Nat.succ.inj hlength, fun x hx => hall x (List.mem_cons_of_mem _ hx)⟩
            exact .succ (u := [n]) ((once_leaf_iff hm).2 ⟨n, rfl, hall n (List.mem_cons_self ..)⟩)
              hrest

/-! ## Single occurrences of groups -/

/-- An occurrence of a choice is one of its members. -/
theorem Once.of_choice {g : GroupId} {w : List QName} (h : c.Once b (.group g) w)
    (hchoice : (c.group g).compositor = .choice) :
    ∃ m ∈ (c.group g).members, c.Words b m w := by
  cases h with
  | leaf hn => cases hn
  | choice _ hm hword => exact ⟨_, hm, hword⟩
  | sequence hsequence =>
      rw [hchoice] at hsequence
      cases hsequence
  | all hall =>
      rw [hchoice] at hall
      cases hall

/-- An occurrence of a sequence is all its members. -/
theorem Once.of_sequence {g : GroupId} {w : List QName} (h : c.Once b (.group g) w)
    (hsequence : (c.group g).compositor = .sequence) : c.Row b (c.group g).members w := by
  cases h with
  | leaf hn => cases hn
  | sequence _ hrow => exact hrow
  | choice hchoice =>
      rw [hsequence] at hchoice
      cases hchoice
  | all hall =>
      rw [hsequence] at hall
      cases hall

/-! ## Rows -/

theorem row_nil_iff {w : List QName} : c.Row b [] w ↔ w = [] := by
  constructor
  · intro h
    cases h
    rfl
  · intro h
    rw [h]
    exact .nil

theorem row_cons_iff {m : Member} {ms : List Member} {w : List QName} :
    c.Row b (m :: ms) w ↔ ∃ u v, w = u ++ v ∧ c.Words b m u ∧ c.Row b ms v := by
  constructor
  · intro h
    cases h with
    | cons hword hrest => exact ⟨_, _, rfl, hword, hrest⟩
  · rintro ⟨u, v, rfl, hword, hrest⟩
    exact .cons hword hrest

theorem Row.append {xs ys : List Member} : ∀ {u v : List QName},
    c.Row b xs u → c.Row b ys v → c.Row b (xs ++ ys) (u ++ v) := by
  induction xs with
  | nil =>
      intro u v hu hv
      cases hu
      exact hv
  | cons x xs ih =>
      intro u v hu hv
      cases hu with
      | cons hword hrest =>
          rw [List.append_assoc]
          exact .cons hword (ih hrest hv)

theorem Row.singleton {m : Member} {w : List QName} (h : c.Words b m w) : c.Row b [m] w := by
  have := Row.cons h .nil
  rwa [List.append_nil] at this

theorem Row.empty {ms : List Member} (h : ∀ m ∈ ms, c.Words b m []) : c.Row b ms [] := by
  induction ms with
  | nil => exact .nil
  | cons m ms ih =>
      exact .cons (u := []) (h m (List.mem_cons_self ..))
        (ih fun x hx => h x (List.mem_cons_of_mem _ hx))

/-- Some words of one occurrence each make up a word of as many occurrences. -/
theorem Times.ofList {m : Member} {ws : List (List QName)} (h : ∀ u ∈ ws, c.Once b m u) :
    c.Times b m ws.length ws.flatten := by
  induction ws with
  | nil => exact .zero
  | cons u ws ih =>
      exact .succ (h u (List.mem_cons_self ..)) (ih fun x hx => h x (List.mem_cons_of_mem _ hx))

/-! ## Elements of different names -/

/-- The members are elements, no two of which have the same name. -/
def DistinctElements (c : Components) (ms : List Member) : Prop :=
  ∃ es : List ElementId, ms = es.map .element ∧ (es.map fun e => (c.element e).name).Nodup

namespace DistinctElements

variable {ms : List Member}

theorem isGroup_eq_false (h : c.DistinctElements ms) {m : Member} (hm : m ∈ ms) :
    m.isGroup = false := by
  obtain ⟨es, rfl, -⟩ := h
  obtain ⟨e, -, rfl⟩ := List.mem_map.1 hm
  rfl

theorem nodup (h : c.DistinctElements ms) : ms.Nodup := by
  obtain ⟨es, rfl, hnodup⟩ := h
  exact (List.Nodup.of_map _ hnodup).map fun _ _ heq => Member.element.inj heq

/-- A name belongs to one member at most. -/
theorem eq_of_passes (h : c.DistinctElements ms) {m m' : Member} {n : QName} (hm : m ∈ ms)
    (hm' : m' ∈ ms) (hp : c.passes m n = true) (hp' : c.passes m' n = true) : m = m' := by
  obtain ⟨es, rfl, hnodup⟩ := h
  obtain ⟨e, he, rfl⟩ := List.mem_map.1 hm
  obtain ⟨e', he', rfl⟩ := List.mem_map.1 hm'
  simp only [passes, Declaration.passes, decide_eq_true_eq] at hp hp'
  rw [List.inj_on_of_nodup_map hnodup he he' (hp.trans hp'.symm)]

end DistinctElements

end Conform.Components
