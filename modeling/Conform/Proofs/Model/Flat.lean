import Conform.Proofs.Model.Steps
import Conform.Proofs.Model.Words
/-!
# Groups of single elements

The words of a group whose members are elements that occur at most once, and what is still to come
of them in the middle of a repetition.
-/

namespace Conform.Components

variable {c : Components}

/-- Every member occurs at most once, and may occur. -/
def Single (c : Components) (ms : List Member) : Prop :=
  ∀ m ∈ ms, m.isGroup = false ∧ (c.occurs m).max = some 1 ∧ (c.occurs m).min.toNat ≤ 1

/-- Words of as many more occurrences of a member as its bounds admit, after `k` of them. -/
def More (c : Components) (m : Member) (k : Nat) (u : List QName) : Prop :=
  ∃ j, (c.occurs m).Admits (k + j) ∧ c.Times c.occurs m j u

/-- Words of the rest of a repetition, after `k` of them, and of as many more as the bounds admit. -/
def RestThenMore (c : Components) (g : GroupId) (k : Nat) (ms : List Member) (u : List QName) :
    Prop :=
  ∃ x y, u = x ++ y ∧ c.Row c.occurs ms x ∧ c.More (.group g) (k + 1) y

/-- No occurrence is left once the bounds are reached. -/
theorem more_over {m : Member} {k : Nat} {u : List QName}
    (hover : ∃ n ∈ (c.occurs m).max, n.toNat ≤ k) :
    c.More m k u ↔ u = [] ∧ (c.occurs m).Admits k := by
  constructor
  · intro h
    obtain ⟨j, hadmits, htimes⟩ := h
    obtain ⟨n, hn, hle⟩ := hover
    have hmax := hadmits.2 n hn
    obtain rfl : j = 0 := by omega
    exact ⟨htimes.eq_nil, hadmits⟩
  · intro h
    obtain ⟨rfl, hadmits⟩ := h
    exact ⟨0, hadmits, .zero⟩

theorem more_full {m : Member} {k : Nat} {u : List QName} {n : UInt32}
    (hmax : (c.occurs m).max = some n) (hk : k = n.toNat)
    (hbounds : (c.occurs m).min.toNat ≤ n.toNat) : c.More m k u ↔ u = [] := by
  have hadmits : (c.occurs m).Admits k := by
    refine ⟨by omega, ?_⟩
    intro n' hn'
    obtain rfl : n = n' := Option.some.inj (hmax.symm.trans hn')
    omega
  rw [more_over ⟨n, hmax, by omega⟩]
  exact and_iff_left hadmits

/-- At first all words of a member are to come. -/
theorem more_zero {m : Member} {u : List QName} : c.More m 0 u ↔ c.Words c.occurs m u := by
  unfold More
  constructor
  · intro h
    obtain ⟨j, hadmits, htimes⟩ := h
    rw [Nat.zero_add] at hadmits
    exact ⟨hadmits, htimes⟩
  · intro h
    obtain ⟨hadmits, htimes⟩ := h
    exact ⟨_, by rwa [Nat.zero_add], htimes⟩

theorem restThenMore_nil {g : GroupId} {k : Nat} {u : List QName} :
    c.RestThenMore g k [] u ↔ c.More (.group g) (k + 1) u := by
  constructor
  · rintro ⟨x, y, rfl, hrow, hmore⟩
    cases hrow
    exact hmore
  · intro hmore
    exact ⟨[], u, rfl, .nil, hmore⟩

/-! ## Leaves -/

/-- A child of a leaf is one occurrence. -/
theorem more_leaf_take {m : Member} {k : Nat} {n : QName} {u : List QName}
    (hm : m.isGroup = false) (hn : c.passes m n = true) :
    c.More m k (n :: u) ↔ c.More m (k + 1) u := by
  constructor
  · intro h
    obtain ⟨j, hadmits, htimes⟩ := h
    obtain ⟨rfl, hall⟩ := (times_leaf_iff hm).1 htimes
    refine ⟨u.length, ?_, (times_leaf_iff hm).2 ⟨rfl, fun x hx => hall x (by simp [hx])⟩⟩
    have heq : k + 1 + u.length = k + (n :: u).length := by
      rw [List.length_cons]
      omega
    rw [heq]
    exact hadmits
  · intro h
    obtain ⟨j, hadmits, htimes⟩ := h
    refine ⟨j + 1, ?_, .succ (u := [n]) ((once_leaf_iff hm).2 ⟨n, rfl, hn⟩) htimes⟩
    have heq : k + (j + 1) = k + 1 + j := by omega
    rw [heq]
    exact hadmits

/-- A leaf that the next child does not match does not occur any more. -/
theorem more_leaf_skip {m : Member} {k : Nat} {u : List QName} (hm : m.isGroup = false)
    (hn : ∀ n ∈ u.head?, c.passes m n = false) :
    c.More m k u ↔ u = [] ∧ (c.occurs m).Admits k := by
  constructor
  · intro h
    obtain ⟨j, hadmits, htimes⟩ := h
    obtain ⟨rfl, hall⟩ := (times_leaf_iff hm).1 htimes
    cases u with
    | nil => exact ⟨rfl, hadmits⟩
    | cons n u =>
        have hyes := hall n (List.mem_cons_self ..)
        rw [hn n rfl] at hyes
        cases hyes
  · intro h
    obtain ⟨rfl, hadmits⟩ := h
    exact ⟨0, hadmits, .zero⟩

theorem words_single_iff {ms : List Member} (hs : c.Single ms) {m : Member} (hm : m ∈ ms)
    {u : List QName} : c.Words c.occurs m u ↔
      u = [] ∧ (c.occurs m).min.toNat = 0 ∨ ∃ n, u = [n] ∧ c.passes m n = true := by
  obtain ⟨hleaf, hmax, hmin⟩ := hs m hm
  constructor
  · rintro ⟨hadmits, htimes⟩
    obtain ⟨hlength, hall⟩ := (times_leaf_iff hleaf).1 htimes
    have hle := hadmits.2 1 hmax
    have hge := hadmits.1
    cases u with
    | nil => exact .inl ⟨rfl, by simp at hlength; omega⟩
    | cons n u =>
        have hnil : u = [] := by
          have hone : (1 : UInt32).toNat = 1 := rfl
          simp only [List.length_cons] at hlength
          exact List.length_eq_zero_iff.1 (by omega)
        subst hnil
        exact .inr ⟨n, rfl, hall n (List.mem_cons_self ..)⟩
  · rintro (⟨rfl, hzero⟩ | ⟨n, rfl, hn⟩)
    · exact .intro (n := 0) ⟨by omega, by simp⟩ .zero
    · refine .intro (n := 1) ⟨hmin, ?_⟩ ((once_leaf_iff hleaf).2 ⟨n, rfl, hn⟩).times
      intro k hk
      obtain rfl : k = 1 := by
        rw [Option.mem_def, hmax] at hk
        exact (Option.some.inj hk).symm
      exact Nat.le_refl _

/-! ## Rows of single elements -/

theorem Single.of_append {before ms : List Member} (h : c.Single (before ++ ms)) : c.Single ms :=
  fun m hm => h m (List.mem_append_right _ hm)

theorem Single.tail {m : Member} {ms : List Member} (h : c.Single (m :: ms)) : c.Single ms :=
  fun x hx => h x (List.mem_cons_of_mem _ hx)

theorem row_single_cons_iff {m : Member} {ms : List Member} (hs : c.Single (m :: ms))
    {u : List QName} : c.Row c.occurs (m :: ms) u ↔
      (∃ n v, u = n :: v ∧ c.passes m n = true ∧ c.Row c.occurs ms v) ∨
        (c.occurs m).min.toNat = 0 ∧ c.Row c.occurs ms u := by
  have hm : m ∈ m :: ms := List.mem_cons_self ..
  constructor
  · intro h
    cases h with
    | cons hword hrest =>
        rcases (words_single_iff hs hm).1 hword with ⟨rfl, hzero⟩ | ⟨n, rfl, hn⟩
        · exact .inr ⟨hzero, hrest⟩
        · exact .inl ⟨n, _, rfl, hn, hrest⟩
  · rintro (⟨n, v, rfl, hn, hrest⟩ | ⟨hzero, hrest⟩)
    · exact .cons (u := [n]) ((words_single_iff hs hm).2 (.inr ⟨n, rfl, hn⟩)) hrest
    · exact .cons (u := []) ((words_single_iff hs hm).2 (.inl ⟨rfl, hzero⟩)) hrest

theorem row_single_nil_iff : ∀ {ms : List Member}, c.Single ms →
    (c.Row c.occurs ms [] ↔ ∀ m ∈ ms, (c.occurs m).min.toNat = 0) := by
  intro ms
  induction ms with
  | nil =>
      intro _
      simpa using Row.nil
  | cons m ms ih =>
      intro hs
      rw [row_single_cons_iff hs, ih hs.tail]
      simp

/-- The first name of a row belongs to its first member that is there. -/
theorem row_single_cons_name : ∀ {ms : List Member} {n : QName} {v : List QName}, c.Single ms →
    c.Row c.occurs ms (n :: v) → ∃ before m rest, ms = before ++ m :: rest ∧
      (∀ x ∈ before, (c.occurs x).min.toNat = 0) ∧ c.passes m n = true ∧ c.Row c.occurs rest v := by
  intro ms
  induction ms with
  | nil =>
      intro n v _ h
      cases h
  | cons m ms ih =>
      intro n v hs h
      rcases (row_single_cons_iff hs).1 h with ⟨n', v', heq, hn, hrest⟩ | ⟨hzero, hrest⟩
      · obtain ⟨rfl, rfl⟩ := List.cons.inj heq
        exact ⟨[], m, ms, rfl, by simp, hn, hrest⟩
      · obtain ⟨before, m', rest, rfl, hbefore, hn, hrest'⟩ := ih hs.tail hrest
        refine ⟨m :: before, m', rest, rfl, ?_, hn, hrest'⟩
        intro x hx
        rcases List.mem_cons.1 hx with rfl | hx
        · exact hzero
        · exact hbefore x hx

theorem row_single_append {before ms : List Member} {u : List QName} (hs : c.Single before)
    (hzero : ∀ x ∈ before, (c.occurs x).min.toNat = 0) (h : c.Row c.occurs ms u) :
    c.Row c.occurs (before ++ ms) u :=
  Row.append (u := []) ((row_single_nil_iff hs).2 hzero) h

/-! ## Sequences of single elements -/

/-- A sequence of elements with different names that occur at most once. -/
structure IsFlatSequence (c : Components) (g : GroupId) : Prop where
  compositor : (c.group g).compositor = .sequence
  single : c.Single (c.group g).members
  distinct : c.DistinctElements (c.group g).members

namespace IsFlatSequence

variable {g : GroupId} {before rest : List Member} {m : Member} {n : QName} {k : Nat}
  {u : List QName}

theorem once_iff (h : c.IsFlatSequence g) :
    c.Once c.occurs (.group g) u ↔ c.Row c.occurs (c.group g).members u := by
  constructor
  · intro honce
    cases honce with
    | leaf hn => cases hn
    | sequence _ hrow => exact hrow
    | choice hchoice =>
        rw [h.compositor] at hchoice
        cases hchoice
    | all hall =>
        rw [h.compositor] at hall
        cases hall
  · exact .sequence h.compositor

/-- The name of a member decides where a repetition stands after it. -/
theorem row_of_passes (h : c.IsFlatSequence g) (hmembers : (c.group g).members = before ++ m :: rest)
    (hn : c.passes m n = true) (hrow : c.Row c.occurs (c.group g).members (n :: u)) :
    c.Row c.occurs rest u ∧ ∀ x ∈ before, (c.occurs x).min.toNat = 0 := by
  obtain ⟨before', m', rest', hsplit, hzero, hn', hrest⟩ := row_single_cons_name h.single hrow
  have hm : m ∈ (c.group g).members := by simp [hmembers]
  have hm' : m' ∈ (c.group g).members := by simp [hsplit]
  obtain rfl := h.distinct.eq_of_passes hm hm' hn hn'
  have hnodup : (before ++ m :: rest).Nodup := hmembers ▸ h.distinct.nodup
  rw [List.nodup_append, List.nodup_cons] at hnodup
  have hnot : m ∉ before := fun hin => hnodup.2.2 m hin m (List.mem_cons_self ..) rfl
  obtain ⟨rfl, -, rfl⟩ := (List.append_cons_inj_of_notMem hnot hnodup.2.1.1).1
    (hmembers.symm.trans hsplit)
  exact ⟨hrest, hzero⟩

/-- After a child of a member comes the rest of the repetition. -/
theorem restThenMore_take (h : c.IsFlatSequence g)
    (hmembers : (c.group g).members = before ++ m :: rest) (hn : c.passes m n = true) :
    c.RestThenMore g k (m :: rest) (n :: u) ↔ c.RestThenMore g k rest u := by
  have hsingle : c.Single (m :: rest) := (hmembers ▸ h.single).of_append
  constructor
  · rintro ⟨x, y, heq, hrow, j, hadmits, htimes⟩
    rcases (row_single_cons_iff hsingle).1 hrow with ⟨n', v, rfl, -, hv⟩ | ⟨hzero, hrest⟩
    · obtain ⟨-, rfl⟩ := List.cons.inj heq
      exact ⟨v, y, rfl, hv, j, hadmits, htimes⟩
    · cases x with
      | cons n' v =>
          -- the name is not one of a later member
          obtain ⟨rfl, -⟩ := List.cons.inj heq
          obtain ⟨_, m', _, hsplit, -, hn', -⟩ := row_single_cons_name hsingle.tail hrest
          have hm' : m' ∈ rest := by simp [hsplit]
          have hmm := h.distinct.eq_of_passes (by simp [hmembers]) (by simp [hmembers, hm']) hn hn'
          have hnodup : (before ++ m :: rest).Nodup := hmembers ▸ h.distinct.nodup
          rw [List.nodup_append] at hnodup
          exact absurd (hmm ▸ hm') (List.nodup_cons.1 hnodup.2.1).1
      | nil =>
          -- the name opens a later repetition, so that all members can be missing
          rw [List.nil_append] at heq
          rw [← heq] at htimes
          obtain ⟨i, l, v, y', rfl, rfl, honce, hmore, -⟩ := htimes.first
          obtain ⟨hv, hbefore⟩ := h.row_of_passes hmembers hn (h.once_iff.1 honce)
          have hrest' := (row_single_nil_iff hsingle.tail).1 hrest
          have hempty : c.Once c.occurs (.group g) [] := by
            refine h.once_iff.2 ((row_single_nil_iff h.single).2 ?_)
            intro x hx
            rw [hmembers] at hx
            rcases List.mem_append.1 hx with hx | hx
            · exact hbefore x hx
            rcases List.mem_cons.1 hx with rfl | hx
            · exact hzero
            · exact hrest' x hx
          exact ⟨v, y', rfl, hv, i + 1 + l, hadmits, hmore.pad hempty (by omega)⟩
  · rintro ⟨x, y, rfl, hrow, hmore⟩
    exact ⟨n :: x, y, rfl, (row_single_cons_iff hsingle).2 (.inl ⟨n, x, rfl, hn, hrow⟩), hmore⟩

/-- A child of a member opens a repetition if the members before it need not be there. -/
theorem more_take (h : c.IsFlatSequence g)
    (hmembers : (c.group g).members = before ++ m :: rest) (hn : c.passes m n = true)
    (hbefore : ∀ x ∈ before, (c.occurs x).min.toNat = 0) :
    c.More (.group g) k (n :: u) ↔ c.RestThenMore g k rest u := by
  have hsingle : c.Single (m :: rest) := (hmembers ▸ h.single).of_append
  constructor
  · rintro ⟨j, hadmits, htimes⟩
    obtain ⟨i, l, v, y, rfl, rfl, honce, hmore, hempty⟩ := htimes.first
    obtain ⟨hv, -⟩ := h.row_of_passes hmembers hn (h.once_iff.1 honce)
    refine ⟨v, y, rfl, hv, i + l, ?_, ?_⟩
    · have heq : k + 1 + (i + l) = k + (i + 1 + l) := by omega
      rw [heq]
      exact hadmits
    · rcases Nat.eq_zero_or_pos i with rfl | hi
      · rw [Nat.zero_add]
        exact hmore
      · exact hmore.pad (hempty hi) (by omega)
  · rintro ⟨x, y, rfl, hrow, j, hadmits, htimes⟩
    have hmembersRow : c.Row c.occurs (c.group g).members (n :: x) := by
      rw [hmembers]
      refine row_single_append ?_ hbefore ?_
      · intro z hz
        exact h.single z (by simp [hmembers, hz])
      · exact (row_single_cons_iff hsingle).2 (.inl ⟨n, x, rfl, hn, hrow⟩)
    refine ⟨j + 1, ?_, .succ (h.once_iff.2 hmembersRow) htimes⟩
    have heq : k + (j + 1) = k + 1 + j := by omega
    rw [heq]
    exact hadmits

/-- A member that the next child does not match is not there. -/
theorem restThenMore_pass (h : c.IsFlatSequence g)
    (hmembers : (c.group g).members = before ++ m :: rest)
    (hn : ∀ n ∈ u.head?, c.passes m n = false) :
    c.RestThenMore g k (m :: rest) u ↔
      (c.occurs m).min.toNat = 0 ∧ c.RestThenMore g k rest u := by
  have hsingle : c.Single (m :: rest) := (hmembers ▸ h.single).of_append
  constructor
  · rintro ⟨x, y, rfl, hrow, hmore⟩
    rcases (row_single_cons_iff hsingle).1 hrow with ⟨n', v, rfl, hn', -⟩ | ⟨hzero, hrest⟩
    · rw [hn n' rfl] at hn'
      cases hn'
    · exact ⟨hzero, x, y, rfl, hrest, hmore⟩
  · rintro ⟨hzero, x, y, rfl, hrow, hmore⟩
    exact ⟨x, y, rfl, (row_single_cons_iff hsingle).2 (.inr ⟨hzero, hrow⟩), hmore⟩

/-- No repetition begins if a member that must be there is not the next child. -/
theorem more_required (h : c.IsFlatSequence g)
    (hmembers : (c.group g).members = before ++ m :: rest)
    (hskip : ∀ x ∈ before ++ [m], ∀ n ∈ u.head?, c.passes x n = false)
    (hmin : (c.occurs m).min.toNat ≠ 0) :
    c.More (.group g) k u ↔ u = [] ∧ (c.occurs (.group g)).Admits k := by
  constructor
  · rintro ⟨j, hadmits, htimes⟩
    cases u with
    | nil =>
        cases j with
        | zero => exact ⟨rfl, hadmits⟩
        | succ j =>
            have hrow := h.once_iff.1 htimes.once_nil
            exact absurd ((row_single_nil_iff h.single).1 hrow m (by simp [hmembers])) hmin
    | cons n u =>
        obtain ⟨i, l, v, y, -, -, honce, -, -⟩ := htimes.first
        obtain ⟨before', m', rest', hsplit, hzero, hn', -⟩ :=
          row_single_cons_name h.single (h.once_iff.1 honce)
        have hm' : m' ∈ (c.group g).members := by simp [hsplit]
        by_cases hin : m' ∈ before ++ [m]
        · rw [hskip m' hin n rfl] at hn'
          cases hn'
        · -- the required member stands before the one that is there
          have hm : m ∈ before' := by
            rcases List.append_eq_append_iff.1 (hmembers.symm.trans hsplit) with
              ⟨between, rfl, heq⟩ | ⟨between, rfl, heq⟩
            · cases between with
              | nil =>
                  obtain ⟨rfl, -⟩ := List.cons.inj heq
                  simp at hin
              | cons x between =>
                  obtain ⟨rfl, -⟩ := List.cons.inj heq
                  simp
            · cases between with
              | nil =>
                  obtain ⟨rfl, -⟩ := List.cons.inj heq
                  simp at hin
              | cons x between =>
                  obtain ⟨rfl, -⟩ := List.cons.inj heq
                  simp at hin
          exact absurd (hzero m hm) hmin
  · rintro ⟨rfl, hadmits⟩
    exact ⟨0, hadmits, .zero⟩

/-- If all members can be missing, so can any number of repetitions. -/
theorem more_nil (h : c.IsFlatSequence g) (hzero : ∀ x ∈ (c.group g).members,
    (c.occurs x).min.toNat = 0) (hbounds : ∀ n ∈ (c.occurs (.group g)).max,
      (c.occurs (.group g)).min.toNat ≤ n.toNat)
    (hk : ∀ n ∈ (c.occurs (.group g)).max, k ≤ n.toNat) : c.More (.group g) k [] := by
  have hempty : c.Once c.occurs (.group g) [] :=
    h.once_iff.2 ((row_single_nil_iff h.single).2 hzero)
  refine ⟨(c.occurs (.group g)).min.toNat - k, ⟨by omega, ?_⟩,
    Times.zero.pad hempty (Nat.zero_le _)⟩
  intro n hn
  have := hbounds n hn
  have := hk n hn
  omega

/-- No repetition has a name that no member has. -/
theorem more_skip (h : c.IsFlatSequence g)
    (hskip : ∀ x ∈ (c.group g).members, ∀ n ∈ u.head?, c.passes x n = false)
    (hmore : c.More (.group g) k u) : u = [] := by
  obtain ⟨j, -, htimes⟩ := hmore
  cases u with
  | nil => rfl
  | cons n u =>
      obtain ⟨_, _, _, _, -, -, honce, -, -⟩ := htimes.first
      obtain ⟨before, m, rest, hsplit, -, hn, -⟩ :=
        row_single_cons_name h.single (h.once_iff.1 honce)
      rw [hskip m (by simp [hsplit]) n rfl] at hn
      cases hn

end IsFlatSequence

/-! ## Choices of single elements -/

/-- A choice between elements with different names that occur once. -/
structure IsFlatChoice (c : Components) (g : GroupId) : Prop where
  compositor : (c.group g).compositor = .choice
  once : ∀ m ∈ (c.group g).members, c.occurs m = .once
  distinct : c.DistinctElements (c.group g).members
  nonempty : (c.group g).members ≠ []

namespace IsFlatChoice

variable {g : GroupId} {k : Nat} {u : List QName}

theorem single (h : c.IsFlatChoice g) : c.Single (c.group g).members := by
  intro m hm
  rw [h.once m hm]
  exact ⟨h.distinct.isGroup_eq_false hm, rfl, Nat.le_refl 1⟩

theorem once_iff (h : c.IsFlatChoice g) : c.Once c.occurs (.group g) u ↔
    ∃ n, u = [n] ∧ ∃ m ∈ (c.group g).members, c.passes m n = true := by
  constructor
  · intro honce
    cases honce with
    | leaf hn => cases hn
    | sequence hseq =>
        rw [h.compositor] at hseq
        cases hseq
    | choice _ hm hword =>
        rcases (words_single_iff h.single hm).1 hword with ⟨-, hzero⟩ | ⟨n, rfl, hn⟩
        · rw [h.once _ hm] at hzero
          cases hzero
        · exact ⟨n, rfl, _, hm, hn⟩
    | all hall =>
        rw [h.compositor] at hall
        cases hall
  · rintro ⟨n, rfl, m, hm, hn⟩
    exact .choice h.compositor hm ((words_single_iff h.single hm).2 (.inr ⟨n, rfl, hn⟩))

/-- Every repetition is one child of a member. -/
theorem times_iff (h : c.IsFlatChoice g) : ∀ {j : Nat} {u : List QName},
    c.Times c.occurs (.group g) j u ↔
      u.length = j ∧ ∀ n ∈ u, ∃ m ∈ (c.group g).members, c.passes m n = true := by
  intro j
  induction j with
  | zero =>
      intro u
      constructor
      · intro htimes
        rw [htimes.eq_nil]
        simp
      · rintro ⟨hlength, -⟩
        rw [List.length_eq_zero_iff.1 hlength]
        exact .zero
  | succ j ih =>
      intro u
      constructor
      · intro htimes
        cases htimes with
        | succ honce hrest =>
            obtain ⟨n, rfl, hn⟩ := h.once_iff.1 honce
            obtain ⟨hlength, hall⟩ := ih.1 hrest
            refine ⟨by simp [hlength], ?_⟩
            intro x hx
            rcases List.mem_cons.1 hx with rfl | hx
            · exact hn
            · exact hall x hx
      · rintro ⟨hlength, hall⟩
        cases u with
        | nil => cases hlength
        | cons n u =>
            have hrest := ih.2 ⟨Nat.succ.inj hlength, fun x hx => hall x (List.mem_cons_of_mem _ hx)⟩
            exact .succ (u := [n]) (h.once_iff.2 ⟨n, rfl, hall n (List.mem_cons_self ..)⟩) hrest

theorem more_iff (h : c.IsFlatChoice g) : c.More (.group g) k u ↔
    (c.occurs (.group g)).Admits (k + u.length) ∧
      ∀ n ∈ u, ∃ m ∈ (c.group g).members, c.passes m n = true := by
  constructor
  · rintro ⟨j, hadmits, htimes⟩
    obtain ⟨rfl, hall⟩ := h.times_iff.1 htimes
    exact ⟨hadmits, hall⟩
  · rintro ⟨hadmits, hall⟩
    exact ⟨u.length, hadmits, h.times_iff.2 ⟨rfl, hall⟩⟩

/-- A child of a member is one repetition. -/
theorem more_take (h : c.IsFlatChoice g) {m : Member} {n : QName}
    (hm : m ∈ (c.group g).members) (hn : c.passes m n = true) :
    c.More (.group g) k (n :: u) ↔ c.More (.group g) (k + 1) u := by
  rw [h.more_iff, h.more_iff, List.length_cons]
  have heq : k + (u.length + 1) = k + 1 + u.length := by omega
  rw [heq]
  constructor
  · rintro ⟨hadmits, hall⟩
    exact ⟨hadmits, fun x hx => hall x (List.mem_cons_of_mem _ hx)⟩
  · rintro ⟨hadmits, hall⟩
    refine ⟨hadmits, fun x hx => ?_⟩
    rcases List.mem_cons.1 hx with rfl | hx
    · exact ⟨m, hm, hn⟩
    · exact hall x hx

/-- No repetition begins with a child that no member matches. -/
theorem more_skip (h : c.IsFlatChoice g)
    (hskip : ∀ x ∈ (c.group g).members, ∀ n ∈ u.head?, c.passes x n = false) :
    c.More (.group g) k u ↔ u = [] ∧ (c.occurs (.group g)).Admits k := by
  rw [h.more_iff]
  cases u with
  | nil => simp
  | cons n u =>
      constructor
      · rintro ⟨-, hall⟩
        obtain ⟨m, hm, hn⟩ := hall n (List.mem_cons_self ..)
        rw [hskip m hm n rfl] at hn
        cases hn
      · rintro ⟨hnil, -⟩
        cases hnil

end IsFlatChoice

end Conform.Components
