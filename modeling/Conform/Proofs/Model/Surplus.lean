import Conform.Proofs.Model.Residue
/-!
# Members that end

A walk leaves a member when the next child does not match it, or when it has reached its maximum.
What is left of the member then belongs to later repetitions, or there is nothing left.
-/

namespace Conform

namespace Walk

theorem ceilDiv_mul_self {n d : Nat} (hd : 0 < d) : ceilDiv (n * d) d = n := by
  have hlow := le_ceilDiv_mul (n * d) hd
  have hhigh := ceilDiv_mul_lt (n * d) hd
  have hle : n ≤ ceilDiv (n * d) d := Nat.le_of_mul_le_mul_right hlow hd
  have hlt : ceilDiv (n * d) d < n + 1 := by
    refine Nat.lt_of_mul_lt_mul_right (a := d) ?_
    rw [Nat.add_mul, Nat.one_mul]
    exact hhigh
  omega

end Walk

namespace Schema

open Components

variable {s : Schema} {root g : GroupId} {counts ceilings : Tally} {m x : Member} {f : Frame}
  {outer : List Frame} {before rest : List Member} {n : QName} {u v w ns : List QName}
  {k : Nat} {E : List QName → Prop}

/-! ## Members that have reached their maximum -/

/-- Nothing is left of a member beyond a maximum that binds. -/
theorem Still.full (hfree : ¬s.Free root m) (hover : ∃ i ∈ (s.occurs m).max, i.toNat ≤ k)
    (h : Still s root m k E ns) : (s.freed root m).Admits k ∧ E ns := by
  obtain ⟨j, u, v, rfl, htimes, hadmits, hE⟩ := h
  obtain ⟨i, hi, hle⟩ := hover
  have hmax := hadmits.2 i (by rw [max_of_not_free hfree]; exact hi)
  obtain rfl : j = 0 := by omega
  rw [htimes.eq_nil]
  exact ⟨hadmits, hE⟩

/-- What is left of a member whose maximum does not bind makes up another repetition. -/
theorem Chain.spread (hs : s.Tractable root) (hchain : Chain s root counts ceilings x (f :: outer))
    (hfree : s.Free root x) (h : Still s root x k (Out s root counts (f :: outer)) ns) :
    Out s root counts (f :: outer) ns := by
  cases hchain with
  | frame hmembers hopen hchain =>
    have hin := hchain.contains
    obtain ⟨hwide, hspreads⟩ := hfree.of_mem hs.built (g := f.group) (by simp [hmembers])
    obtain ⟨j, u, v, rfl, htimes, -, a, b, rfl, hrow, hstill⟩ := h
    rcases Nat.eq_zero_or_pos j with rfl | hj
    · rw [htimes.eq_nil]
      exact ⟨a, b, rfl, hrow, hstill⟩
    have hword : s.Words (s.freed root) x u := .intro (hfree.admits hj) htimes
    obtain ⟨hbefore, hlater⟩ := hs.words_beside hin hmembers hspreads.lonely
    have honce := once_of_member (hs.compositor _ hin) hmembers hbefore hword hrow
    refine ⟨[], u ++ (a ++ b), rfl, hlater, ?_⟩
    rw [← List.append_assoc]
    exact .once honce (hstill.wide hwide (Nat.le_add_left 1 _))

/-- A member that has reached its maximum ends. -/
theorem Chain.full (hs : s.Tractable root) (hchain : Chain s root counts ceilings x (f :: outer))
    (hover : ∃ i ∈ (s.occurs x).max, i.toNat ≤ k) (hk : 1 ≤ k)
    (h : Still s root x k (Out s root counts (f :: outer)) ns) :
    (s.freed root x).Admits k ∧ Out s root counts (f :: outer) ns := by
  by_cases hfree : s.Free root x
  · exact ⟨hfree.admits hk, hchain.spread hs hfree h⟩
  · exact h.full hfree hover

/-! ## Members that the next child does not match -/

theorem times_leaf_pass {j : Nat} (hm : m.isGroup = false) (hn : ∀ n ∈ ns.head?, s.passes m n = false)
    (heq : ns = u ++ v) (htimes : s.Times (s.freed root) m j u) : j = 0 ∧ v = ns := by
  obtain ⟨hlength, hall⟩ := (times_leaf_iff hm).1 htimes
  cases u with
  | nil => exact ⟨hlength.symm, heq.symm⟩
  | cons n u =>
      have hyes := hall n (List.mem_cons_self ..)
      rw [hn n (by simp [heq])] at hyes
      cases hyes

/-- A leaf that the next child does not match ends. -/
theorem Still.pass_leaf (hm : m.isGroup = false) (hn : ∀ n ∈ ns.head?, s.passes m n = false)
    (h : Still s root m k E ns) : (s.freed root m).Admits k ∧ E ns := by
  obtain ⟨j, u, v, heq, htimes, hadmits, hE⟩ := h
  obtain ⟨rfl, rfl⟩ := times_leaf_pass hm hn heq htimes
  exact ⟨hadmits, hE⟩

/-- No word of a leaf begins with a name that it does not match. -/
theorem passed_leaf (hm : m.isGroup = false) (hn : ∀ n ∈ ns.head?, s.passes m n = false) :
    Passed s root m ns := by
  intro n hhead u hword
  cases hword with
  | intro _ htimes =>
      have hyes := ((times_leaf_iff hm).1 htimes).2 n (List.mem_cons_self ..)
      rw [hn n hhead] at hyes
      cases hyes

/-- A group of which no repetition begins with the next name ends. -/
theorem Still.pass_group (hnone : ∀ n ∈ ns.head?, ∀ u, ¬s.Once (s.freed root) (.group g) (n :: u))
    (h : Still s root (.group g) k E ns) :
    (∃ j, (s.freed root (.group g)).Admits (k + j) ∧
      (0 < j → s.Once (s.freed root) (.group g) [])) ∧ E ns := by
  cases ns with
  | nil =>
      obtain ⟨j, u, v, heq, htimes, hadmits, hE⟩ := h
      obtain ⟨rfl, rfl⟩ := List.append_eq_nil_iff.1 heq.symm
      refine ⟨⟨j, hadmits, fun hpos => ?_⟩, hE⟩
      obtain ⟨j, rfl⟩ := Nat.exists_eq_add_of_le' hpos
      exact htimes.once_nil
  | cons n ns =>
      rcases h.cons with ⟨u, _, -, honce, -⟩ | ⟨j, hadmits, hempty, hE⟩
      · exact absurd honce (hnone n rfl u)
      · exact ⟨⟨j, hadmits, hempty⟩, hE⟩

/-- No word of a group begins with a name with which no repetition begins. -/
theorem passed_group (hnone : ∀ n ∈ ns.head?, ∀ u, ¬s.Once (s.freed root) (.group g) (n :: u)) :
    Passed s root (.group g) ns := by
  intro n hn w hword
  cases hword with
  | intro _ htimes =>
      obtain ⟨_, u, _, -, -, honce, -⟩ := htimes.cons
      exact hnone n hn u honce

/-- No repetition begins with a name if no word of a member does. -/
theorem Tractable.not_once (hs : s.Tractable root) (hin : s.Contains root (.group g))
    (hpassed : ∀ x ∈ (s.group g).members, Passed s root x ns) :
    ∀ n ∈ ns.head?, ∀ u, ¬s.Once (s.freed root) (.group g) (n :: u) := by
  have hrow : ∀ {ms : List Member} {n : QName} {u : List QName}, n ∈ ns.head? →
      (∀ x ∈ ms, Passed s root x ns) → ¬s.Row (s.freed root) ms (n :: u) := by
    intro ms
    induction ms with
    | nil =>
        intro n u _ _ hrow
        cases hrow
    | cons x ms ih =>
        intro n u hn hall hrow
        obtain ⟨a, b, heq, ha, hb⟩ := row_cons_iff.1 hrow
        cases a with
        | nil =>
            rw [List.nil_append] at heq
            exact ih hn (fun y hy => hall y (List.mem_cons_of_mem _ hy)) (heq ▸ hb)
        | cons n' a =>
            obtain ⟨rfl, -⟩ := List.cons.inj heq
            exact hall x (List.mem_cons_self ..) n hn a ha
  intro n hn u honce
  cases hc : (s.group g).compositor with
  | all => exact hs.compositor g hin hc
  | choice =>
      obtain ⟨x, hx, hword⟩ := honce.of_choice hc
      exact hpassed x hx n hn u hword
  | sequence => exact hrow hn hpassed (honce.of_sequence hc)

end Schema

end Conform
