import Conform.Proofs.Model.Leaves
import Conform.Proofs.Model.Nesting
/-!
# What is still to come

Behind the member at which a walk stands come the rest of the repetition, further repetitions of the
group, and the same for every group around it. A walk that stays in a member takes children for it
that another reading of the model leaves to a later repetition. In a steady model they can be moved:
what is left can still come.
-/

namespace Conform

namespace Components

variable {c : Components} {b : Member → Occurs}

/-- The first occurrence can be taken to be the one with the first name. -/
theorem Times.cons {m : Member} {j : Nat} {n : QName} {w : List QName}
    (h : c.Times b m j (n :: w)) : ∃ i u v, j = i + 1 ∧ w = u ++ v ∧ c.Once b m (n :: u) ∧
      c.Times b m i v := by
  obtain ⟨i, k, u, v, rfl, rfl, honce, hrest, hempty⟩ := h.first
  refine ⟨i + k, u, v, by omega, rfl, honce, ?_⟩
  rcases Nat.eq_zero_or_pos i with rfl | hpos
  · rw [Nat.zero_add]
    exact hrest
  · exact hrest.pad (hempty hpos) (Nat.le_add_left _ _)

end Components

namespace Schema

open Components

/-- A content of sequences and choices with different names, in which a walk misses nothing. -/
structure Tractable (s : Schema) (root : GroupId) : Prop where
  built : s.Built
  compositor : ∀ g, s.Contains root (.group g) → (s.group g).compositor ≠ .all
  distinct : s.DistinctElements (s.leaves root)
  not_isVoid : ¬s.IsVoid (.group root)
  steady : s.IsSteady root

/-- The members that come behind one in the same repetition. -/
def later (s : Schema) (g : GroupId) (rest : List Member) : List Member :=
  if (s.group g).compositor = .choice then [] else rest

section

variable (s : Schema) (root : GroupId) (counts ceilings : Tally)

/-- As many more occurrences of a member as are admitted after `n`, and then `E`. -/
def Still (m : Member) (n : Nat) (E : List QName → Prop) (ns : List QName) : Prop :=
  ∃ j u v, ns = u ++ v ∧ s.Times (s.freed root) m j u ∧ (s.freed root m).Admits (n + j) ∧ E v

/-- The rest of the repetition of a group, further repetitions, and then `E`. -/
def Behind (f : Frame) (E : List QName → Prop) (ns : List QName) : Prop :=
  ∃ u v, ns = u ++ v ∧ s.Row (s.freed root) (s.later f.group f.rest) u ∧
    Still s root (.group f.group) (counts.count (.group f.group) + 1) E v

/-- What comes behind the member at which the first of some groups stands, up to the end of all. -/
def Out : List Frame → List QName → Prop
  | [] => fun ns => ns = []
  | f :: outer => Behind s root counts f (Out outer)

/-- The groups around a member, none of which has reached its maximum. -/
inductive Chain : Member → List Frame → Prop
  | root : Chain (.group root) []
  | frame {m : Member} {f : Frame} {outer : List Frame} {before : List Member} :
      (s.group f.group).members = before ++ m :: f.rest → IsOpen s counts ceilings f.group →
      Chain (.group f.group) outer → Chain m (f :: outer)

/-- No word of the member begins with the next name. -/
def Passed (m : Member) (ns : List QName) : Prop :=
  ∀ n ∈ ns.head?, ∀ u, ¬s.Words (s.freed root) m (n :: u)

/-- A group of which no repetition has begun, and what is still to come. It has complete repetitions
behind it, or something of the group around it has matched, or neither and that group has not begun
either. -/
inductive Idle : GroupId → List Frame → List QName → Prop
  | root {ns : List QName} : (counts.count (.group root) = 0 → ns ≠ []) →
      Still s root (.group root) (counts.count (.group root)) (Out s root counts []) ns →
      Idle root [] ns
  | going {g : GroupId} {f : Frame} {outer : List Frame} {ns : List QName} :
      0 < counts.count (.group g) ∨ f.matched = true →
      Still s root (.group g) (counts.count (.group g)) (Out s root counts (f :: outer)) ns →
      Idle g (f :: outer) ns
  | fresh {g : GroupId} {f : Frame} {outer : List Frame} {before : List Member}
      {ns : List QName} : counts.count (.group g) = 0 → f.matched = false →
      (s.group f.group).members = before ++ .group g :: f.rest →
      (∀ x ∈ before, Passed s root x ns) → Idle f.group outer ns → Idle g (f :: outer) ns

/-- What is still to come of an alternative of which `k` occurrences are not yet dealt out to
repetitions of its choice. -/
def Pending (m : Member) (k : Nat) (g : GroupId) (E : List QName → Prop) (ns : List QName) : Prop :=
  ∃ j r u v, ns = u ++ v ∧ s.Times (s.freed root) m j u ∧ 1 ≤ r ∧
    r * (s.occurs m).min.toNat ≤ k + j ∧ (∀ n ∈ (s.occurs m).max, k + j ≤ r * n.toNat) ∧
    Still s root (.group g) (counts.count (.group g) + r) E v

end

variable {s : Schema} {root g : GroupId} {counts ceilings : Tally} {m x : Member} {f : Frame}
  {outer : List Frame} {before rest : List Member} {n : QName} {u v w ns : List QName}
  {k : Nat} {E : List QName → Prop}

/-! ## One group -/

section

/-- The other members of a repetition that begins with a name of one of them. -/
theorem Built.row_cons (hs : s.Built) (hdistinct : s.DistinctElements (s.leaves g))
    (hx : s.Has x n) (hxg : x ∈ (s.group g).members) :
    ∀ {before : List Member} {u : List QName}, (∀ y ∈ before ++ x :: rest, y ∈ (s.group g).members) →
      s.Row (s.freed root) (before ++ x :: rest) (n :: u) → (before ++ x :: rest).Nodup →
      ∃ w w', u = w ++ w' ∧ s.Words (s.freed root) x (n :: w) ∧ s.Row (s.freed root) rest w' ∧
        ∀ y ∈ before, s.Words (s.freed root) y [] := by
  intro before
  induction before with
  | nil =>
      intro u hsub hrow hnodup
      obtain ⟨a, b, heq, ha, hb⟩ := row_cons_iff.1 hrow
      cases a with
      | nil =>
          rw [List.nil_append] at heq
          rw [← heq] at hb
          obtain ⟨y, hy, hyn⟩ := hb.has hs n (List.mem_cons_self ..)
          have heq := hs.eq_of_has hdistinct hxg (hsub y (by simp [hy])) hx hyn
          exact absurd (heq ▸ hy) (List.nodup_cons.1 hnodup).1
      | cons n' a =>
          obtain ⟨rfl, rfl⟩ := List.cons.inj heq
          exact ⟨a, b, rfl, ha, hb, by simp⟩
  | cons y before ih =>
      intro u hsub hrow hnodup
      rw [List.cons_append] at hrow hnodup
      obtain ⟨a, b, heq, ha, hb⟩ := row_cons_iff.1 hrow
      have hyg : y ∈ (s.group g).members := hsub y (by simp)
      cases a with
      | nil =>
          rw [List.nil_append] at heq
          rw [← heq] at hb
          obtain ⟨w, w', hu, hw, hw', hbefore⟩ :=
            ih (fun z hz => hsub z (List.mem_cons_of_mem _ hz)) hb (List.nodup_cons.1 hnodup).2
          refine ⟨w, w', hu, hw, hw', fun z hz => ?_⟩
          rcases List.mem_cons.1 hz with rfl | hz
          · exact ha
          · exact hbefore z hz
      | cons n' a =>
          obtain ⟨rfl, rfl⟩ := List.cons.inj heq
          have heq := hs.eq_of_has hdistinct hxg hyg hx (ha.has hs n (List.mem_cons_self ..))
          refine absurd ?_ (List.nodup_cons.1 hnodup).1
          rw [← heq]
          simp

/-- A repetition that begins with a name of a member. -/
theorem Built.once_cons (hs : s.Built) (hdistinct : s.DistinctElements (s.leaves g))
    (hcompositor : (s.group g).compositor ≠ .all)
    (hmembers : (s.group g).members = before ++ x :: rest) (hx : s.Has x n)
    (honce : s.Once (s.freed root) (.group g) (n :: u)) :
    ∃ w w', u = w ++ w' ∧ s.Words (s.freed root) x (n :: w) ∧
      s.Row (s.freed root) (s.later g rest) w' ∧
      ((s.group g).compositor ≠ .choice → ∀ y ∈ before, s.Words (s.freed root) y []) := by
  have hxg : x ∈ (s.group g).members := by simp [hmembers]
  cases hc : (s.group g).compositor with
  | all => exact absurd hc hcompositor
  | choice =>
      obtain ⟨y, hy, hword⟩ := honce.of_choice hc
      obtain rfl := hs.eq_of_has hdistinct hxg hy hx (hword.has hs n (List.mem_cons_self ..))
      refine ⟨u, [], (List.append_nil u).symm, hword, ?_, fun hno => absurd rfl hno⟩
      rw [later, if_pos hc]
      exact .nil
  | sequence =>
      have hrow := honce.of_sequence hc
      have hnodup := hs.forest.nodup g
      rw [hmembers] at hrow hnodup
      obtain ⟨w, w', hu, hw, hw', hbefore⟩ :=
        hs.row_cons hdistinct hx hxg (fun y hy => hmembers ▸ hy) hrow hnodup
      refine ⟨w, w', hu, hw, ?_, fun _ => hbefore⟩
      rw [later, if_neg (by simp [hc])]
      exact hw'

/-- A repetition of which a member has other words. -/
theorem once_of_member (hcompositor : (s.group g).compositor ≠ .all)
    (hmembers : (s.group g).members = before ++ x :: rest)
    (hbefore : (s.group g).compositor ≠ .choice → ∀ y ∈ before, s.Words (s.freed root) y [])
    (hx : s.Words (s.freed root) x u) (hlater : s.Row (s.freed root) (s.later g rest) v) :
    s.Once (s.freed root) (.group g) (u ++ v) := by
  cases hc : (s.group g).compositor with
  | all => exact absurd hc hcompositor
  | choice =>
      rw [later, if_pos hc] at hlater
      rw [row_nil_iff.1 hlater, List.append_nil]
      exact .choice hc (by simp [hmembers]) hx
  | sequence =>
      rw [later, if_neg (by simp [hc])] at hlater
      refine .sequence hc ?_
      rw [hmembers]
      exact Row.append (u := []) (.empty (hbefore (by simp [hc]))) (.cons hx hlater)

/-- The members behind one have none of its names. -/
theorem Built.row_later (hs : s.Built) (hdistinct : s.DistinctElements (s.leaves g))
    (hmembers : (s.group g).members = before ++ x :: rest) (hx : s.Has x n)
    (hrow : s.Row (s.freed root) (s.later g rest) u) (heq : n :: ns = u ++ v) :
    u = [] ∧ v = n :: ns := by
  cases u with
  | nil => exact ⟨rfl, heq.symm⟩
  | cons n' u =>
      obtain ⟨rfl, -⟩ := List.cons.inj heq
      obtain ⟨y, hy, hyn⟩ := hrow.has hs n (List.mem_cons_self ..)
      have hyrest : y ∈ rest := by
        unfold later at hy
        split at hy
        · cases hy
        · exact hy
      have hsame := hs.eq_of_has hdistinct (by simp [hmembers]) (by simp [hmembers, hyrest]) hx hyn
      have hnodup := hs.forest.nodup g
      rw [hmembers, List.nodup_append, List.nodup_cons] at hnodup
      exact absurd (hsame ▸ hyrest) hnodup.2.1.1

/-- A member beside which all others can be empty. -/
theorem Tractable.isLonely (h : s.Tractable root) (hin : s.Contains root (.group g))
    (hmembers : (s.group g).members = before ++ x :: rest)
    (hbefore : (s.group g).compositor ≠ .choice → ∀ y ∈ before, s.Words (s.freed root) y [])
    (hlater : s.Row (s.freed root) (s.later g rest) []) : s.IsLonely g x := by
  refine ⟨by simp [hmembers], fun hchoice y hy hne => ?_⟩
  rw [later, if_neg hchoice] at hlater
  refine ((h.built.widened_freed root).words_nil_iff h.built hasAlternatives_freed
    (hin.member hy)).1 ?_
  rw [hmembers, List.mem_append, List.mem_cons] at hy
  rcases hy with hy | rfl | hy
  · exact hbefore hchoice y hy
  · exact absurd rfl hne
  · exact Widened.forall_row_nil hlater y hy

/-- The others can be empty beside a lonely member. -/
theorem Tractable.words_beside (h : s.Tractable root) (hin : s.Contains root (.group g))
    (hmembers : (s.group g).members = before ++ x :: rest) (hlonely : s.IsLonely g x) :
    ((s.group g).compositor ≠ .choice → ∀ y ∈ before, s.Words (s.freed root) y []) ∧
      s.Row (s.freed root) (s.later g rest) [] := by
  have hnodup := h.built.forest.nodup g
  rw [hmembers, List.nodup_append, List.nodup_cons] at hnodup
  obtain ⟨-, ⟨hxrest, -⟩, hbefore⟩ := hnodup
  have hempty : (s.group g).compositor ≠ .choice → ∀ y ∈ (s.group g).members, y ≠ x →
      s.Words (s.freed root) y [] := by
    intro hchoice y hy hne
    exact (h.built.widened_freed root).words_nil h.built hasAlternatives_freed (hin.member hy)
      (hlonely.others hchoice y hy hne)
  constructor
  · intro hchoice y hy
    refine hempty hchoice y (by simp [hmembers, hy]) ?_
    exact hbefore y hy x (List.mem_cons_self ..)
  · unfold later
    split
    · exact .nil
    · rename_i hchoice
      refine .empty fun y hy => hempty hchoice y (by simp [hmembers, hy]) ?_
      rintro rfl
      exact hxrest hy

end

/-! ## Further occurrences -/

namespace Still

theorem done (hadmits : (s.freed root m).Admits k) (h : E ns) : Still s root m k E ns :=
  ⟨0, [], ns, rfl, .zero, hadmits, h⟩

/-- One occurrence more. -/
theorem once (honce : s.Once (s.freed root) m u) (h : Still s root m (k + 1) E v) :
    Still s root m k E (u ++ v) := by
  obtain ⟨j, a, b, rfl, htimes, hadmits, hE⟩ := h
  have heq : k + (j + 1) = k + 1 + j := by omega
  exact ⟨j + 1, u ++ a, b, (List.append_assoc ..).symm, .succ honce htimes, heq ▸ hadmits, hE⟩

/-- The next name begins another occurrence, or all that are left are empty. -/
theorem cons (h : Still s root m k E (n :: ns)) :
    (∃ u v, ns = u ++ v ∧ s.Once (s.freed root) m (n :: u) ∧ Still s root m (k + 1) E v) ∨
      ∃ j, (s.freed root m).Admits (k + j) ∧ (0 < j → s.Once (s.freed root) m []) ∧
        E (n :: ns) := by
  obtain ⟨j, u, v, heq, htimes, hadmits, hE⟩ := h
  cases u with
  | nil =>
      rw [List.nil_append] at heq
      refine .inr ⟨j, hadmits, fun hpos => ?_, heq ▸ hE⟩
      obtain ⟨j, rfl⟩ := Nat.exists_eq_add_of_le' hpos
      exact htimes.once_nil
  | cons n' u =>
      obtain ⟨rfl, rfl⟩ := List.cons.inj heq
      obtain ⟨i, a, b, rfl, rfl, honce, hrest⟩ := htimes.cons
      have hsum : k + (i + 1) = k + 1 + i := by omega
      exact .inl ⟨a, b ++ v, List.append_assoc .., honce, i, b, v, rfl, hrest, hsum ▸ hadmits, hE⟩

/-- A word of a member that begins with a name, and then `E`. -/
theorem of_words (hword : s.Words (s.freed root) m (n :: w)) (hE : E v) :
    ∃ a b, w ++ v = a ++ b ∧ s.Once (s.freed root) m (n :: a) ∧ Still s root m 1 E b := by
  cases hword with
  | @intro _ j _ hadmits htimes =>
      obtain ⟨i, a, b, rfl, rfl, honce, hrest⟩ := htimes.cons
      exact ⟨a, b ++ v, List.append_assoc .., honce, i, b, v, rfl, hrest,
        Nat.add_comm i 1 ▸ hadmits, hE⟩

/-- The number of repetitions does not matter for a group that may be repeated at will. -/
theorem wide {k' : Nat} (h : Still s root (.group g) k E ns) (hwide : s.Wide root g)
    (hk : 1 ≤ k') : Still s root (.group g) k' E ns := by
  obtain ⟨j, u, v, heq, htimes, -, hE⟩ := h
  exact ⟨j, u, v, heq, htimes, hwide.admits (hk.trans (Nat.le_add_right _ _)), hE⟩

end Still

/-! ## The groups around a member -/

namespace Chain

theorem contains (h : Chain s root counts ceilings m outer) : s.Contains root m := by
  induction h with
  | root => exact .root
  | frame hmembers _ _ ih => exact ih.member (by simp [hmembers])

/-- All leaves in a group around a member have different names. -/
theorem distinct (h : Chain s root counts ceilings (.group g) outer) (hs : s.Tractable root)
    (hmax : (s.group g).occurs.max ≠ some 0) : s.DistinctElements (s.leaves g) := by
  generalize hm : Member.group g = m at h
  induction h generalizing g with
  | root =>
      obtain rfl := Member.group.inj hm
      exact hs.distinct
  | frame hmembers hopen _ ih =>
      have hf := ih hopen.max_ne_zero rfl
      refine hs.built.distinct_leaves hf ?_ hmax
      rw [hm, hmembers]
      simp

end Chain

/-! ## Children that can be moved -/

/-- Occurrences of a group that begin with a name of a member, and may have another word of it. -/
theorem Tractable.times_replace {j : Nat} (hs : s.Tractable root) (hin : s.Contains root (.group g))
    (hdistinct : s.DistinctElements (s.leaves g))
    (hmembers : (s.group g).members = before ++ x :: rest) (hx : s.Has x n)
    (htimes : s.Times (s.freed root) (.group g) j (n :: u)) :
    ∃ w w', u = w ++ w' ∧ s.Words (s.freed root) x (n :: w) ∧
      ∀ w₂, s.Words (s.freed root) x w₂ → s.Times (s.freed root) (.group g) j (w₂ ++ w') := by
  have hcompositor := hs.compositor g hin
  obtain ⟨i, a, b, rfl, rfl, honce, hrest⟩ := htimes.cons
  obtain ⟨w, w', rfl, hw, hw', hbefore⟩ :=
    hs.built.once_cons hdistinct hcompositor hmembers hx honce
  refine ⟨w, w' ++ b, List.append_assoc .., hw, fun w₂ hw₂ => ?_⟩
  rw [← List.append_assoc]
  exact .succ (once_of_member hcompositor hmembers hbefore hw₂ hw') hrest

/-- Further repetitions of a group that begin with a name of a member, and may have another word of
it, or what comes behind them. -/
theorem Still.replace (hs : s.Tractable root) (hin : s.Contains root (.group g))
    (hdistinct : s.DistinctElements (s.leaves g))
    (hmembers : (s.group g).members = before ++ x :: rest) (hx : s.Has x n)
    (h : Still s root (.group g) k E (n :: ns)) :
    (∃ w v, ns = w ++ v ∧ s.Words (s.freed root) x (n :: w) ∧
      ∀ w₂, s.Words (s.freed root) x w₂ → Still s root (.group g) k E (w₂ ++ v)) ∨
    E (n :: ns) ∧ ∀ ns', E ns' → Still s root (.group g) k E ns' := by
  obtain ⟨j, u, v, heq, htimes, hadmits, hE⟩ := h
  cases u with
  | nil =>
      rw [List.nil_append] at heq
      exact .inr ⟨heq ▸ hE, fun ns' hE' => ⟨j, [], ns', rfl, htimes, hadmits, hE'⟩⟩
  | cons n' u =>
      obtain ⟨rfl, rfl⟩ := List.cons.inj heq
      obtain ⟨w, w', rfl, hw, hreplace⟩ := hs.times_replace hin hdistinct hmembers hx htimes
      refine .inl ⟨w, w' ++ v, List.append_assoc .., hw, fun w₂ hw₂ => ?_⟩
      exact ⟨j, w₂ ++ w', v, (List.append_assoc ..).symm, hreplace w₂ hw₂, hadmits, hE⟩

/-- The next name does not belong to the rest of the repetition if it is one of the member before. -/
theorem Chain.behind_cons (hs : s.Tractable root)
    (hchain : Chain s root counts ceilings x (f :: outer)) (hx : s.Has x n)
    (h : Behind s root counts f E (n :: ns)) :
    s.Row (s.freed root) (s.later f.group f.rest) [] ∧
      Still s root (.group f.group) (counts.count (.group f.group) + 1) E (n :: ns) := by
  cases hchain with
  | frame hmembers hopen hchain =>
      obtain ⟨u, v, heq, hrow, hstill⟩ := h
      obtain ⟨rfl, rfl⟩ := hs.built.row_later (hchain.distinct hs hopen.max_ne_zero) hmembers hx
        hrow heq
      exact ⟨hrow, hstill⟩

/-- What comes behind a member begins with a name of it: so does a later word of the member, for
which any other word may come. -/
theorem Chain.replace (hs : s.Tractable root) : ∀ {outer : List Frame} {x : Member} {f : Frame}
    {ns : List QName}, Chain s root counts ceilings x (f :: outer) → s.Has x n →
      Out s root counts (f :: outer) (n :: ns) →
      ∃ w v, ns = w ++ v ∧ s.Words (s.freed root) x (n :: w) ∧
        ∀ w₂, s.Words (s.freed root) x w₂ → Out s root counts (f :: outer) (w₂ ++ v) := by
  intro outer
  induction outer with
  | nil =>
      intro x f ns hchain hx hout
      obtain ⟨hrow, hstill⟩ := hchain.behind_cons hs hx hout
      cases hchain with
      | frame hmembers hopen hchain =>
      have hdistinct := hchain.distinct hs hopen.max_ne_zero
      rcases hstill.replace hs hchain.contains hdistinct hmembers hx with
        ⟨w, v, hns, hw, hreplace⟩ | ⟨hnil, -⟩
      · exact ⟨w, v, hns, hw, fun w₂ hw₂ => ⟨[], w₂ ++ v, rfl, hrow, hreplace w₂ hw₂⟩⟩
      · cases hnil
  | cons f' outer ih =>
      intro x f ns hchain hx hout
      obtain ⟨hrow, hstill⟩ := hchain.behind_cons hs hx hout
      cases hchain with
      | frame hmembers hopen hchain =>
      have hin := hchain.contains
      have hdistinct := hchain.distinct hs hopen.max_ne_zero
      rcases hstill.replace hs hin hdistinct hmembers hx with ⟨w, v, hns, hw, hreplace⟩ | ⟨hE, hother⟩
      · exact ⟨w, v, hns, hw, fun w₂ hw₂ => ⟨[], w₂ ++ v, rfl, hrow, hreplace w₂ hw₂⟩⟩
      · -- the name comes in a later repetition of the group around
        have hgroup := hx.group hs.built (by simp [hmembers]) hopen.max_ne_zero
        obtain ⟨w₁, v₁, rfl, hw₁, hlater⟩ := ih hchain hgroup hE
        cases hw₁ with
        | intro hadmits htimes =>
        obtain ⟨w, w', rfl, hw, hreplace⟩ := hs.times_replace hin hdistinct hmembers hx htimes
        refine ⟨w, w' ++ v₁, List.append_assoc .., hw, fun w₂ hw₂ => ?_⟩
        have hout' := hlater _ (.intro hadmits (hreplace w₂ hw₂))
        rw [List.append_assoc] at hout'
        exact ⟨[], w₂ ++ (w' ++ v₁), rfl, hrow, hother _ hout'⟩

/-- A particle with a word that is not empty may occur. -/
theorem max_ne_zero_of_words (h : s.Words (s.freed root) m (n :: w)) :
    (s.occurs m).max ≠ some 0 := by
  cases h with
  | intro hadmits htimes =>
      obtain ⟨i, _, _, rfl, -⟩ := htimes.cons
      exact max_ne_zero_of_admits (Nat.le_add_left 1 i) hadmits

/-- The next name begins another repetition of a group that has occurred, or the group is firm. -/
def Resumes (s : Schema) (root g : GroupId) (k : Nat) (E : List QName → Prop) (n : QName)
    (ns : List QName) : Prop :=
  (∃ u v, ns = u ++ v ∧ s.Once (s.freed root) (.group g) (n :: u) ∧
    Still s root (.group g) (k + 1) E v) ∨
  s.Firm (.group g) ∧ (∃ u, s.Once (s.freed root) (.group g) (n :: u)) ∧
    ∃ j, (s.freed root (.group g)).Admits (k + j) ∧
      (0 < j → s.Once (s.freed root) (.group g) [])

/-- A member ends, and then a name of it comes in a later repetition. The member is firm, or an
alternative, or what comes later of it may come now. -/
theorem Resumes.absorb (hs : s.Tractable root)
    (hchain : Chain s root counts ceilings x (f :: outer)) (hx : s.Has x n)
    (hrow : s.Row (s.freed root) (s.later f.group f.rest) [])
    (h : Resumes s root f.group (counts.count (.group f.group) + 1) E n ns) :
    (∃ w, s.Words (s.freed root) x (n :: w)) ∧
      (s.Firm x ∨ x.isGroup = false ∧ (s.group f.group).compositor = .choice ∨
        (s.freed root x).max = none ∧ ∃ w v, ns = w ++ v ∧ s.Words (s.freed root) x (n :: w) ∧
          Behind s root counts f E v) := by
  cases hchain with
  | frame hmembers hopen hchain =>
    have hin := hchain.contains
    have hcompositor := hs.compositor _ hin
    have hdistinct := hchain.distinct hs hopen.max_ne_zero
    rcases h with ⟨u, v, rfl, honce, hstill⟩ | ⟨hfirm, ⟨u, honce⟩, -⟩
    · obtain ⟨w, w', rfl, hw, hw', hbefore⟩ :=
        hs.built.once_cons hdistinct hcompositor hmembers hx honce
      have hlonely := hs.isLonely hin hmembers hbefore hrow
      have hrepeats : s.Repeats root f.group := by
        obtain ⟨j, -, -, -, -, hadmits, -⟩ := hstill
        exact repeats_of_admits (by omega) hadmits
      refine ⟨⟨w, hw⟩, ?_⟩
      rcases hs.steady.firm_or hin hrepeats hlonely hcompositor (max_ne_zero_of_words hw) with
        hfirm | ⟨hwide, hnone | hleaf⟩
      · exact .inl hfirm
      · refine .inr (.inr ⟨hnone, w, w' ++ v, List.append_assoc .., hw, w', v, rfl, hw', ?_⟩)
        exact hstill.wide hwide (Nat.le_add_left 1 _)
      · exact .inr (.inl hleaf)
    · obtain ⟨w, w', rfl, hw, hw', hbefore⟩ :=
        hs.built.once_cons hdistinct hcompositor hmembers hx honce
      have hlonely := hs.isLonely hin hmembers hbefore hrow
      exact ⟨⟨w, hw⟩, .inl (hfirm.of_lonely hopen.max_ne_zero hlonely)⟩

/-- A group that has occurred goes on with a name of it, or it is firm. -/
theorem Chain.resumes (hs : s.Tractable root) : ∀ {outer : List Frame} {g : GroupId} {k : Nat}
    {ns : List QName}, Chain s root counts ceilings (.group g) outer → s.Has (.group g) n →
      1 ≤ k → Still s root (.group g) k (Out s root counts outer) (n :: ns) →
      Resumes s root g k (Out s root counts outer) n ns := by
  intro outer
  induction outer with
  | nil =>
      intro g k ns _ _ _ hstill
      rcases hstill.cons with hmore | ⟨j, -, -, hnil⟩
      · exact .inl hmore
      · cases hnil
  | cons f outer ih =>
      intro g k ns hchain hg hk hstill
      rcases hstill.cons with hmore | ⟨j, hadmits, hempty, hout⟩
      · exact .inl hmore
      obtain ⟨hrow, hlater⟩ := hchain.behind_cons hs hg hout
      have hresumes : Resumes s root f.group (counts.count (.group f.group) + 1)
          (Out s root counts outer) n ns := by
        cases hchain with
        | frame hmembers hopen hchain =>
            exact ih hchain (hg.group hs.built (by simp [hmembers]) hopen.max_ne_zero)
              (Nat.le_add_left 1 _) hlater
      obtain ⟨⟨w, hw⟩, hfirm | ⟨hleaf, -⟩ | ⟨hnone, w, v, rfl, hw, hbehind⟩⟩ :=
        hresumes.absorb hs hchain hg hrow
      · cases hw with
        | intro _ htimes =>
            obtain ⟨_, u, _, -, -, honce, -⟩ := htimes.cons
            exact .inr ⟨hfirm, ⟨u, honce⟩, j, hadmits, hempty⟩
      · cases hleaf
      · -- the empty occurrences that are left are kept for the minimum
        cases hw with
        | intro _ htimes =>
            obtain ⟨i, a, b, rfl, rfl, honce, hrest⟩ := htimes.cons
            refine .inl ⟨a, b ++ v, List.append_assoc .., honce, j + i, b, v, rfl, ?_, ?_, hbehind⟩
            · rcases Nat.eq_zero_or_pos j with rfl | hpos
              · rw [Nat.zero_add]
                exact hrest
              · exact hrest.pad (hempty hpos) (Nat.le_add_left _ _)
            · refine ⟨hadmits.1.trans (by omega), fun m hm => ?_⟩
              rw [hnone] at hm
              cases hm

/-- What comes behind a member begins with a name of it. The member is firm, or an alternative, or
what comes later of it may come now. -/
theorem Chain.absorb (hs : s.Tractable root)
    (hchain : Chain s root counts ceilings x (f :: outer)) (hx : s.Has x n)
    (h : Out s root counts (f :: outer) (n :: ns)) :
    s.Firm x ∨ x.isGroup = false ∧ (s.group f.group).compositor = .choice ∨
      (s.freed root x).max = none ∧ ∃ w v, ns = w ++ v ∧ s.Words (s.freed root) x (n :: w) ∧
        Out s root counts (f :: outer) v := by
  obtain ⟨hrow, hlater⟩ := hchain.behind_cons hs hx h
  have hresumes : Resumes s root f.group (counts.count (.group f.group) + 1)
      (Out s root counts outer) n ns := by
    cases hchain with
    | frame hmembers hopen hchain =>
        exact hchain.resumes hs (hx.group hs.built (by simp [hmembers]) hopen.max_ne_zero)
          (Nat.le_add_left 1 _) hlater
  exact (hresumes.absorb hs hchain hx hrow).2

/-! ## The next child -/

/-- A firm particle that has not reached its maximum does not end. -/
theorem Tractable.not_admits (hs : s.Tractable root) (hin : s.Contains root m)
    (hvoid : ¬s.IsVoid m) (hfirm : s.Firm m) {j : Nat} (hk : 1 ≤ k) (hopen : ∀ i ∈ (s.occurs m).max, k < i.toNat)
    (hempty : 0 < j → s.Once (s.freed root) m []) : ¬(s.freed root m).Admits (k + j) := by
  have hwidened := hs.built.widened_freed root
  refine hfirm.not_admits hwidened hvoid (fun g hg honce => ?_) hk hopen hempty
  subst hg
  exact (hwidened.once_nil_iff hs.built hasAlternatives_freed hin).1 honce

/-- A child that a walk can take in a group begins a repetition of it. -/
theorem Idle.once (hs : s.Tractable root) : ∀ {outer : List Frame} {g : GroupId} {ns : List QName},
    Chain s root counts ceilings (.group g) outer → IsOpen s counts ceilings g →
      s.Has (.group g) n → Idle s root counts g outer (n :: ns) →
      ∃ u v, ns = u ++ v ∧ s.Once (s.freed root) (.group g) (n :: u) ∧
        Still s root (.group g) (counts.count (.group g) + 1) (Out s root counts outer) v := by
  intro outer
  induction outer with
  | nil =>
      intro g ns hchain _ _ hidle
      cases hidle with
      | root _ hstill =>
          rcases hstill.cons with hmore | ⟨_, -, -, hnil⟩
          · exact hmore
          · cases hnil
  | cons f outer ih =>
      intro g ns hchain hopen hg hidle
      cases hidle with
      | going hlive hstill =>
          by_cases hk : 1 ≤ counts.count (.group g)
          · rcases hchain.resumes hs hg hk hstill with hmore | ⟨hfirm, -, j, hadmits, hempty⟩
            · exact hmore
            · exact absurd hadmits
                (hs.not_admits hchain.contains (hg.not_isVoid hs.built) hfirm hk hopen.count_lt
                  hempty)
          · rcases hstill.cons with hmore | ⟨j, hadmits, hempty, hout⟩
            · exact hmore
            -- a later word of the group is moved here, and the empty one there
            have hzero : counts.count (.group g) = 0 := by omega
            have hnil : s.Words (s.freed root) (.group g) [] := by
              rw [hzero, Nat.zero_add] at hadmits
              rcases Nat.eq_zero_or_pos j with rfl | hpos
              · exact .intro hadmits .zero
              · exact .intro hadmits (Times.pad (hempty hpos) .zero (Nat.zero_le _))
            obtain ⟨w, v, rfl, hw, hreplace⟩ := hchain.replace hs hg hout
            obtain ⟨a, b, hab, honce, hstill⟩ := Still.of_words hw (hreplace [] hnil)
            rw [hzero]
            exact ⟨a, b, hab, honce, hstill⟩
      | fresh hzero hmatched hmembers _ hidle =>
          cases hchain with
          | frame hmembers' hopenf hchain =>
          obtain ⟨u, v, rfl, honce, hstill⟩ :=
            ih hchain hopenf (hg.group hs.built (by simp [hmembers']) hopenf.max_ne_zero) hidle
          have hin := hchain.contains
          obtain ⟨w, w', rfl, hw, hw', -⟩ := hs.built.once_cons
            (hchain.distinct hs hopenf.max_ne_zero) (hs.compositor _ hin) hmembers hg honce
          have hbehind : Out s root counts (f :: outer) (w' ++ v) := ⟨w', v, rfl, hw', hstill⟩
          obtain ⟨a, b, hab, honce, hstill⟩ := Still.of_words hw hbehind
          rw [hzero, List.append_assoc]
          exact ⟨a, b, hab, honce, hstill⟩

theorem once_leaf (hm : m.isGroup = false) (h : s.Once (s.freed root) m (n :: u)) : u = [] := by
  obtain ⟨_, heq, -⟩ := (once_leaf_iff hm).1 h
  exact (List.cons.inj heq).2

theorem not_once_leaf_nil (hm : m.isGroup = false) : ¬s.Once (s.freed root) m [] := by
  intro h
  obtain ⟨_, heq, -⟩ := (once_leaf_iff hm).1 h
  cases heq

/-- A child that a leaf takes is one occurrence of it, unless the leaf has ended. -/
theorem Still.cons_leaf (hm : m.isGroup = false) (h : Still s root m k E (n :: ns)) :
    Still s root m (k + 1) E ns ∨ (s.freed root m).Admits k ∧ E (n :: ns) := by
  rcases h.cons with ⟨u, v, rfl, honce, hstill⟩ | ⟨j, hadmits, hempty, hE⟩
  · obtain rfl := once_leaf hm honce
    exact .inl hstill
  · have hj : j = 0 := by
      by_contra hno
      exact not_once_leaf_nil hm (hempty (Nat.pos_of_ne_zero hno))
    subst hj
    exact .inr ⟨hadmits, hE⟩

/-- A child for the leaf of a sequence that has not reached its maximum. -/
theorem Chain.take_leaf (hs : s.Tractable root) (hm : m.isGroup = false)
    (hchain : Chain s root counts ceilings m (f :: outer))
    (hsequence : (s.group f.group).compositor = .sequence) (hn : s.passes m n = true)
    (hopen : ∀ i ∈ (s.occurs m).max, k < i.toNat)
    (h : Still s root m k (Out s root counts (f :: outer)) (n :: ns)) :
    Still s root m (k + 1) (Out s root counts (f :: outer)) ns := by
  have hhas := (has_leaf hm).2 hn
  rcases h.cons_leaf hm with hmore | ⟨hadmits, hout⟩
  · exact hmore
  rcases Nat.eq_zero_or_pos k with rfl | hk
  · obtain ⟨w, v, rfl, hw, hreplace⟩ := hchain.replace hs hhas hout
    obtain ⟨a, b, hab, honce, hstill⟩ := Still.of_words hw (hreplace [] (.intro hadmits .zero))
    obtain rfl := once_leaf hm honce
    obtain rfl : w ++ v = b := hab
    exact hstill
  rcases hchain.absorb hs hhas hout with hfirm | ⟨-, hchoice⟩ | ⟨hnone, w, v, rfl, hw, hlater⟩
  · refine absurd ?_ (hs.not_admits hchain.contains (not_isVoid_leaf hm) hfirm hk hopen (j := 0)
      (by simp))
    exact hadmits
  · rw [hsequence] at hchoice
    cases hchoice
  · cases hw with
    | intro _ htimes =>
      obtain ⟨i, a, b, rfl, rfl, honce, hrest⟩ := htimes.cons
      obtain rfl := once_leaf hm honce
      refine ⟨i, b, v, rfl, hrest, ⟨hadmits.1.trans (by omega), fun l hl => ?_⟩, hlater⟩
      rw [hnone] at hl
      cases hl

/-- The first child of a repetition that the leaf of a sequence takes. -/
theorem Chain.begin_leaf (hs : s.Tractable root) (hm : m.isGroup = false)
    (hchain : Chain s root counts ceilings m (f :: outer)) (hn : s.passes m n = true)
    (honce : s.Once (s.freed root) (.group f.group) (n :: u))
    (h : Still s root (.group f.group) (counts.count (.group f.group) + 1)
      (Out s root counts outer) v) :
    Still s root m 1 (Out s root counts (f :: outer)) (u ++ v) := by
  cases hchain with
  | frame hmembers hopen hchain =>
      have hin := hchain.contains
      obtain ⟨w, w', rfl, hw, hw', -⟩ := hs.built.once_cons
        (hchain.distinct hs hopen.max_ne_zero) (hs.compositor _ hin) hmembers ((has_leaf hm).2 hn)
        honce
      have hbehind : Out s root counts (f :: outer) (w' ++ v) := ⟨w', v, rfl, hw', h⟩
      obtain ⟨a, b, hab, honce, hstill⟩ := Still.of_words hw hbehind
      obtain rfl := once_leaf hm honce
      rw [List.append_assoc]
      obtain rfl : w ++ (w' ++ v) = b := hab
      exact hstill

/-! ## Alternatives -/

/-- The maximum of an alternative that is a leaf binds. -/
theorem not_free_alternative (hs : s.Built) (hm : m.isGroup = false)
    (hmem : m ∈ (s.group g).members) (hchoice : (s.group g).compositor = .choice) :
    ¬s.Free root m := by
  intro hfree
  rcases (hfree.of_mem hs hmem).2.isGroup_or with hgroup | hsequence
  · rw [hm] at hgroup
    cases hgroup
  · rw [hchoice] at hsequence
    cases hsequence

/-- A repetition of a choice that begins with a child for one of its leaves. -/
theorem Chain.words_alternative (hs : s.Tractable root) (hm : m.isGroup = false)
    (hchain : Chain s root counts ceilings m (f :: outer))
    (hchoice : (s.group f.group).compositor = .choice) (hn : s.passes m n = true)
    (honce : s.Once (s.freed root) (.group f.group) (n :: u)) :
    ∃ i, (s.occurs m).Admits (i + 1) ∧ s.Times (s.freed root) m i u := by
  cases hchain with
  | frame hmembers hopen hchain =>
      have hin := hchain.contains
      have hmem : m ∈ (s.group f.group).members := by simp [hmembers]
      obtain ⟨w, w', rfl, hw, hw', -⟩ := hs.built.once_cons
        (hchain.distinct hs hopen.max_ne_zero) (hs.compositor _ hin) hmembers ((has_leaf hm).2 hn)
        honce
      rw [later, if_pos hchoice] at hw'
      rw [row_nil_iff.1 hw', List.append_nil]
      cases hw with
      | intro hadmits htimes =>
          rw [freed_leaf hm (not_free_alternative hs.built hm hmem hchoice)] at hadmits
          obtain ⟨i, a, b, rfl, rfl, honce, hrest⟩ := htimes.cons
          obtain rfl := once_leaf hm honce
          exact ⟨i, hadmits, hrest⟩

/-- The first child that an alternative takes. -/
theorem Chain.begin_alternative (hs : s.Tractable root) (hm : m.isGroup = false)
    (hchain : Chain s root counts ceilings m (f :: outer))
    (hchoice : (s.group f.group).compositor = .choice) (hn : s.passes m n = true)
    (honce : s.Once (s.freed root) (.group f.group) (n :: u))
    (h : Still s root (.group f.group) (counts.count (.group f.group) + 1) E v) :
    Pending s root counts m 1 f.group E (u ++ v) := by
  obtain ⟨i, hadmits, htimes⟩ := hchain.words_alternative hs hm hchoice hn honce
  refine ⟨i, 1, u, v, rfl, htimes, Nat.le_refl 1, ?_, fun l hl => ?_, h⟩
  · have hmin := hadmits.1
    omega
  · have hmax := hadmits.2 l hl
    omega

/-- A further child that an alternative takes. If it belongs to a later repetition, that is one
repetition more. -/
theorem Chain.take_alternative (hs : s.Tractable root) (hm : m.isGroup = false)
    (hchain : Chain s root counts ceilings m (f :: outer))
    (hchoice : (s.group f.group).compositor = .choice) (hn : s.passes m n = true)
    (hopen : (s.occurs m).isAmbiguous = false → ∀ i ∈ (s.occurs m).max, k < i.toNat)
    (h : Pending s root counts m k f.group (Out s root counts outer) (n :: ns)) :
    Pending s root counts m (k + 1) f.group (Out s root counts outer) ns := by
  obtain ⟨j, r, u, v, heq, htimes, hr, hmin, hmax, hstill⟩ := h
  cases u with
  | cons n' u =>
      obtain ⟨rfl, rfl⟩ := List.cons.inj heq
      obtain ⟨i, a, b, rfl, rfl, honce, hrest⟩ := htimes.cons
      obtain rfl := once_leaf hm honce
      have hsum : k + (i + 1) = k + 1 + i := by omega
      rw [hsum] at hmin
      exact ⟨i, r, b, v, rfl, hrest, hr, hmin, fun l hl => hsum ▸ hmax l hl, hstill⟩
  | nil =>
      rw [List.nil_append] at heq
      rw [← heq] at hstill
      have hj : j = 0 := ((times_leaf_iff hm).1 htimes).1.symm
      subst hj
      rw [Nat.add_zero] at hmin hmax
      have hresumes : Resumes s root f.group (counts.count (.group f.group) + r)
          (Out s root counts outer) n ns := by
        cases hchain with
        | frame hmembers hopen hchain =>
            have hgroup := ((has_leaf hm).2 hn).group hs.built (by simp [hmembers])
              hopen.max_ne_zero
            exact hchain.resumes hs hgroup (hr.trans (Nat.le_add_left _ _)) hstill
      rcases hresumes with ⟨a, b, rfl, honce, hstill⟩ | ⟨hfirm, -⟩
      · obtain ⟨i, hadmits, hrest⟩ := hchain.words_alternative hs hm hchoice hn honce
        refine ⟨i, r + 1, a, b, rfl, hrest, Nat.le_add_left 1 r, ?_, fun l hl => ?_, ?_⟩
        · have hmin' := hadmits.1
          rw [Nat.succ_mul]
          omega
        · have hmax' := hadmits.2 l hl
          have hle := hmax l hl
          rw [Nat.succ_mul]
          omega
        · rw [← Nat.add_assoc]
          exact hstill
      · -- the alternatives of a firm choice are exact
        cases hchain with
        | frame hmembers hopenf hchain =>
        have hexact : (s.occurs m).max = some (s.occurs m).min := by
          cases hfirm with
          | leaf hleaf => cases hleaf
          | never hzero => exact absurd hzero hopenf.max_ne_zero
          | group _ _ hleaves => exact hleaves hchoice m (by simp [hmembers]) hm
        have hlt := hopen (by simp [Occurs.isAmbiguous, hexact]) _ hexact
        have hle : 1 * (s.occurs m).min.toNat ≤ r * (s.occurs m).min.toNat :=
          Nat.mul_le_mul_right _ hr
        omega

end Schema

end Conform
