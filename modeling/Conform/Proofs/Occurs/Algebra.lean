import Conform.Occurs.Fold
import Mathlib.Data.Set.Basic
/-!
# The algebra of occurrence bounds

Bounds are compared by what they admit: narrower bounds admit fewer numbers of occurrences. Products
form a commutative monoid, in spite of the largest word, at which they stop, and of maxima that are
zero or missing. Sums, products and joins of ordered bounds are ordered again, and they are wider
where their arguments are.
-/

namespace Conform

variable {i j k l : UInt32}

instance lawfulOrderMin : Std.LawfulOrderMin UInt32 where
  min_eq_or a b := by
    simp only [← UInt32.toNat_inj, UInt32.toNat_min]
    omega
  le_min_iff a b c := by
    simp only [UInt32.le_iff_toNat_le, UInt32.toNat_min]
    omega

instance lawfulOrderMax : Std.LawfulOrderMax UInt32 where
  max_eq_or a b := by
    simp only [← UInt32.toNat_inj, UInt32.toNat_max]
    omega
  max_le_iff a b c := by
    simp only [UInt32.le_iff_toNat_le, UInt32.toNat_max]
    omega

theorem min_le_min_of_le (hi : i ≤ k) (hj : j ≤ l) : Min.min i j ≤ Min.min k l :=
  Std.le_min_iff.2 ⟨UInt32.le_trans Std.min_le_left hi, UInt32.le_trans Std.min_le_right hj⟩

theorem max_le_max_of_le (hi : i ≤ k) (hj : j ≤ l) : Max.max i j ≤ Max.max k l :=
  Std.max_le_iff.2 ⟨UInt32.le_trans hi Std.left_le_max, UInt32.le_trans hj Std.right_le_max⟩

/-! ## Arithmetic that stops at the largest word -/

theorem toNat_satAdd (a b : UInt32) :
    (satAdd a b).toNat = Min.min (a.toNat + b.toNat) (UInt32.size - 1) := toNat_saturate _

theorem toNat_satMul (a b : UInt32) :
    (satMul a b).toNat = Min.min (a.toNat * b.toNat) (UInt32.size - 1) := toNat_saturate _

theorem saturate_mono {m n : Nat} (h : m ≤ n) : saturate m ≤ saturate n := by
  rw [UInt32.le_iff_toNat_le, toNat_saturate, toNat_saturate]
  omega

theorem satAdd_mono (hi : i ≤ k) (hj : j ≤ l) : satAdd i j ≤ satAdd k l :=
  saturate_mono (Nat.add_le_add (UInt32.le_iff_toNat_le.1 hi) (UInt32.le_iff_toNat_le.1 hj))

theorem satMul_mono (hi : i ≤ k) (hj : j ≤ l) : satMul i j ≤ satMul k l :=
  saturate_mono (Nat.mul_le_mul (UInt32.le_iff_toNat_le.1 hi) (UInt32.le_iff_toNat_le.1 hj))

theorem satMul_comm (a b : UInt32) : satMul a b = satMul b a :=
  congrArg saturate (Nat.mul_comm ..)

theorem satMul_one (a : UInt32) : satMul a 1 = a := by
  have hlt : a.toNat < UInt32.size := a.toNat_lt
  rw [← UInt32.toNat_inj, toNat_satMul, UInt32.toNat_one, Nat.mul_one]
  omega

theorem satMul_eq_zero_iff {a b : UInt32} : satMul a b = 0 ↔ a = 0 ∨ b = 0 := by
  have hsize : UInt32.size - 1 ≠ 0 := by decide
  simp only [← UInt32.toNat_inj, toNat_satMul, UInt32.toNat_zero, Nat.min_eq_zero_iff, hsize,
    or_false, Nat.mul_eq_zero]

theorem satMul_ne_zero {a b : UInt32} (ha : a ≠ 0) (hb : b ≠ 0) : satMul a b ≠ 0 :=
  fun h => (satMul_eq_zero_iff.1 h).elim ha hb

/-- Saturating on the way does not matter. -/
theorem toNat_satMul_satMul (a b c : UInt32) : (satMul (satMul a b) c).toNat =
    Min.min (a.toNat * b.toNat * c.toNat) (UInt32.size - 1) := by
  rw [toNat_satMul, toNat_satMul]
  rcases Nat.eq_zero_or_pos c.toNat with hc | hc
  · rw [hc, Nat.mul_zero, Nat.mul_zero]
  · rcases Nat.le_total (a.toNat * b.toNat) (UInt32.size - 1) with hle | hle
    · rw [Nat.min_eq_left hle]
    · rw [Nat.min_eq_right hle, Nat.min_eq_right (Nat.le_mul_of_pos_right _ hc),
        Nat.min_eq_right (hle.trans (Nat.le_mul_of_pos_right _ hc))]

theorem satMul_assoc (a b c : UInt32) : satMul (satMul a b) c = satMul a (satMul b c) := by
  rw [satMul_comm a (satMul b c), ← UInt32.toNat_inj, toNat_satMul_satMul, toNat_satMul_satMul,
    Nat.mul_assoc, Nat.mul_comm a.toNat]

theorem satMul_right_comm (a b c : UInt32) : satMul (satMul a b) c = satMul (satMul a c) b := by
  rw [satMul_assoc, satMul_comm b, ← satMul_assoc]

namespace Occurs

/-! ## Maxima -/

section Maxima

variable {l m n m' n' : Option UInt32}

/-- The product of two maxima, where nothing is as good as never. -/
def mulMax (m n : Option UInt32) : Option UInt32 :=
  match m, n with
  | some m, some n => some (satMul m n)
  | some m, none => if m = 0 then some 0 else none
  | none, some n => if n = 0 then some 0 else none
  | none, none => none

theorem mulMax_comm (m n : Option UInt32) : mulMax m n = mulMax n m := by
  cases m <;> cases n <;> simp [mulMax, satMul_comm]

@[simp] theorem mulMax_zero_left (n : Option UInt32) : mulMax (some 0) n = some 0 := by
  cases n with
  | none => rfl
  | some n => exact congrArg some (satMul_eq_zero_iff.2 (.inl rfl))

@[simp] theorem mulMax_zero_right (m : Option UInt32) : mulMax m (some 0) = some 0 := by
  rw [mulMax_comm, mulMax_zero_left]

theorem mulMax_one (m : Option UInt32) : mulMax m (some 1) = m := by
  cases m with
  | none => rfl
  | some m => exact congrArg some (satMul_one m)

theorem mulMax_eq_bind (hm : m ≠ some 0) (hn : n ≠ some 0) :
    mulMax m n = m.bind fun a => n.map (satMul a) := by
  cases m <;> cases n <;> simp_all [mulMax]

theorem mulMax_ne_zero (hm : m ≠ some 0) (hn : n ≠ some 0) : mulMax m n ≠ some 0 := by
  rw [mulMax_eq_bind hm hn]
  cases m <;> cases n <;> simp_all [satMul_eq_zero_iff]

theorem mulMax_assoc (l m n : Option UInt32) : mulMax (mulMax l m) n = mulMax l (mulMax m n) := by
  by_cases hl : l = some 0
  · simp only [hl, mulMax_zero_left]
  by_cases hm : m = some 0
  · simp only [hm, mulMax_zero_left, mulMax_zero_right]
  by_cases hn : n = some 0
  · simp only [hn, mulMax_zero_right]
  rw [mulMax_eq_bind (mulMax_ne_zero hl hm) hn, mulMax_eq_bind hl hm,
    mulMax_eq_bind hl (mulMax_ne_zero hm hn), mulMax_eq_bind hm hn]
  cases l <;> cases m <;> cases n <;> simp [satMul_assoc]

theorem mulMax_right_comm (l m n : Option UInt32) :
    mulMax (mulMax l m) n = mulMax (mulMax l n) m := by
  rw [mulMax_assoc, mulMax_comm m, ← mulMax_assoc]

/-- A product has a maximum if both factors have one or one of them is never there. -/
theorem mem_mulMax : k ∈ mulMax m n ↔
    (∃ i ∈ m, ∃ j ∈ n, satMul i j = k) ∨ k = 0 ∧ (m = some 0 ∨ n = some 0) := by
  by_cases hm : m = some 0
  · subst hm
    have hzero : ∀ j, satMul 0 j = 0 := fun j => satMul_eq_zero_iff.2 (.inl rfl)
    simp [hzero, eq_comm]
  by_cases hn : n = some 0
  · subst hn
    have hzero : ∀ i, satMul i 0 = 0 := fun i => satMul_eq_zero_iff.2 (.inr rfl)
    simp [hzero, eq_comm]
  rw [mulMax_eq_bind hm hn]
  simp [hm, hn, Option.bind_eq_some_iff]

/-- Every number up to the first maximum is one up to the second. -/
def AtMost (m n : Option UInt32) : Prop := ∀ k ∈ n, ∃ i ∈ m, i ≤ k

theorem AtMost.refl (m : Option UInt32) : AtMost m m := fun k hk => ⟨k, hk, UInt32.le_refl k⟩

theorem AtMost.trans (h : AtMost l m) (h' : AtMost m n) : AtMost l n := by
  intro k hk
  obtain ⟨j, hj, hjk⟩ := h' k hk
  obtain ⟨i, hi, hij⟩ := h j hj
  exact ⟨i, hi, UInt32.le_trans hij hjk⟩

theorem AtMost.antisymm (h : AtMost m n) (h' : AtMost n m) : m = n := by
  cases m with
  | none =>
      cases n with
      | none => rfl
      | some k =>
          obtain ⟨i, hi, -⟩ := h k rfl
          cases hi
  | some i =>
      obtain ⟨j, hj, hji⟩ := h' i rfl
      obtain ⟨i', hi', hij⟩ := h j hj
      cases hi'
      rw [UInt32.le_antisymm hij hji]
      exact hj.symm

theorem AtMost.eq_zero (h : AtMost m (some 0)) : m = some 0 := by
  obtain ⟨i, hi, hle⟩ := h 0 rfl
  rw [← UInt32.le_zero_iff.1 hle]
  exact hi

theorem AtMost.mulMax (hm : AtMost m m') (hn : AtMost n n') :
    AtMost (mulMax m n) (mulMax m' n') := by
  intro k hk
  rcases mem_mulMax.1 hk with ⟨i', hi', j', hj', rfl⟩ | ⟨rfl, hzero⟩
  · obtain ⟨i, hi, hile⟩ := hm i' hi'
    obtain ⟨j, hj, hjle⟩ := hn j' hj'
    exact ⟨_, mem_mulMax.2 (.inl ⟨i, hi, j, hj, rfl⟩), satMul_mono hile hjle⟩
  · refine ⟨0, mem_mulMax.2 (.inr ⟨rfl, ?_⟩), UInt32.le_refl 0⟩
    exact hzero.imp (fun h => (h ▸ hm).eq_zero) fun h => (h ▸ hn).eq_zero

end Maxima

/-! ## Narrower bounds -/

section Order

variable {a b c a' b' : Occurs} {m n : Nat}

theorem isOrdered_iff : a.isOrdered = true ↔ ∀ k ∈ a.max, a.min ≤ k := by
  cases h : a.max <;> simp [isOrdered, h]

theorem isRestriction_iff :
    a.isRestriction b = true ↔ b.min ≤ a.min ∧ AtMost a.max b.max := by
  cases ha : a.max <;> cases hb : b.max <;> simp [isRestriction, AtMost, ha, hb]

/-- Ordered bounds admit their minimum. -/
theorem admits_min (h : a.isOrdered = true) : a.Admits a.min.toNat :=
  ⟨Nat.le_refl _, fun k hk => UInt32.le_iff_toNat_le.1 (isOrdered_iff.1 h k hk)⟩

theorem admits_max (h : a.isOrdered = true) (hk : k ∈ a.max) : a.Admits k.toNat := by
  refine ⟨UInt32.le_iff_toNat_le.1 (isOrdered_iff.1 h k hk), fun j hj => ?_⟩
  rw [Option.mem_unique hj hk]

theorem Admits.of_isRestriction (h : a.isRestriction b = true) (hn : a.Admits n) :
    b.Admits n := by
  obtain ⟨hmin, hmax⟩ := isRestriction_iff.1 h
  refine ⟨(UInt32.le_iff_toNat_le.1 hmin).trans hn.1, fun k hk => ?_⟩
  obtain ⟨i, hi, hle⟩ := hmax k hk
  exact (hn.2 i hi).trans (UInt32.le_iff_toNat_le.1 hle)

/-- Without a maximum the bounds admit numbers beyond every word. -/
theorem max_ne_none_of_forall_admits (h : ∀ n, a.Admits n → b.Admits n) (hk : k ∈ b.max) :
    a.max ≠ none := by
  intro hnone
  have hadmits : a.Admits (a.min.toNat + k.toNat + 1) := by
    refine ⟨by omega, fun j hj => ?_⟩
    rw [hnone] at hj
    cases hj
  have hle := (h _ hadmits).2 k hk
  omega

/-- Narrower bounds are those that admit fewer numbers of occurrences. -/
theorem isRestriction_iff_subset (ha : a.isOrdered = true) :
    a.isRestriction b = true ↔ {n | a.Admits n} ⊆ {n | b.Admits n} := by
  constructor
  · exact fun h n hn => hn.of_isRestriction h
  · intro h
    rw [isRestriction_iff]
    refine ⟨UInt32.le_iff_toNat_le.2 (h (admits_min ha)).1, fun k hk => ?_⟩
    obtain ⟨i, hi⟩ := Option.ne_none_iff_exists'.1 (max_ne_none_of_forall_admits h hk)
    exact ⟨i, hi, UInt32.le_iff_toNat_le.2 ((h (admits_max ha hi)).2 k hk)⟩

theorem isRestriction_refl (a : Occurs) : a.isRestriction a = true :=
  isRestriction_iff.2 ⟨UInt32.le_refl _, .refl _⟩

theorem isRestriction_trans (h : a.isRestriction b = true) (h' : b.isRestriction c = true) :
    a.isRestriction c = true := by
  obtain ⟨hmin, hmax⟩ := isRestriction_iff.1 h
  obtain ⟨hmin', hmax'⟩ := isRestriction_iff.1 h'
  exact isRestriction_iff.2 ⟨UInt32.le_trans hmin' hmin, hmax.trans hmax'⟩

theorem isRestriction_antisymm (h : a.isRestriction b = true) (h' : b.isRestriction a = true) :
    a = b := by
  obtain ⟨hmin, hmax⟩ := isRestriction_iff.1 h
  obtain ⟨hmin', hmax'⟩ := isRestriction_iff.1 h'
  cases a
  cases b
  exact congrArg₂ Occurs.mk (UInt32.le_antisymm hmin' hmin) (hmax.antisymm hmax')

/-! ## Products, sums and joins -/

theorem multiply_comm (a b : Occurs) : a.multiply b = b.multiply a :=
  congrArg₂ Occurs.mk (satMul_comm ..) (mulMax_comm ..)

theorem multiply_assoc (a b c : Occurs) :
    (a.multiply b).multiply c = a.multiply (b.multiply c) :=
  congrArg₂ Occurs.mk (satMul_assoc ..) (mulMax_assoc ..)

theorem multiply_once (a : Occurs) : a.multiply once = a :=
  congrArg₂ Occurs.mk (satMul_one _) (mulMax_one _)

theorem once_multiply (a : Occurs) : once.multiply a = a :=
  (multiply_comm ..).trans (multiply_once a)

theorem mem_add_max : k ∈ (a.add b).max ↔ ∃ i ∈ a.max, ∃ j ∈ b.max, satAdd i j = k := by
  unfold add
  cases a.max <;> cases b.max <;> simp

theorem mem_join_max : k ∈ (a.join b).max ↔ ∃ i ∈ a.max, ∃ j ∈ b.max, Max.max i j = k := by
  unfold join
  cases a.max <;> cases b.max <;> simp

theorem isOrdered_multiply (ha : a.isOrdered = true) (hb : b.isOrdered = true) :
    (a.multiply b).isOrdered = true := by
  rw [isOrdered_iff] at *
  intro k hk
  show satMul a.min b.min ≤ k
  rcases mem_mulMax.1 hk with ⟨i, hi, j, hj, rfl⟩ | ⟨rfl, hzero⟩
  · exact satMul_mono (ha i hi) (hb j hj)
  · rw [satMul_eq_zero_iff.2 (hzero.imp (fun h => UInt32.le_zero_iff.1 (ha 0 h))
      fun h => UInt32.le_zero_iff.1 (hb 0 h))]
    exact UInt32.le_refl 0

theorem isOrdered_add (ha : a.isOrdered = true) (hb : b.isOrdered = true) :
    (a.add b).isOrdered = true := by
  rw [isOrdered_iff] at *
  intro k hk
  obtain ⟨i, hi, j, hj, rfl⟩ := mem_add_max.1 hk
  exact satAdd_mono (ha i hi) (hb j hj)

theorem isOrdered_join (ha : a.isOrdered = true) (b : Occurs) : (a.join b).isOrdered = true := by
  rw [isOrdered_iff] at *
  intro k hk
  obtain ⟨i, hi, j, hj, rfl⟩ := mem_join_max.1 hk
  calc Min.min a.min b.min ≤ a.min := Std.min_le_left
    _ ≤ i := ha i hi
    _ ≤ Max.max i j := Std.left_le_max

/-- Products of narrower bounds are narrower. -/
theorem isRestriction_multiply (h : a.isRestriction a' = true) (h' : b.isRestriction b' = true) :
    (a.multiply b).isRestriction (a'.multiply b') = true := by
  rw [isRestriction_iff] at *
  exact ⟨satMul_mono h.1 h'.1, h.2.mulMax h'.2⟩

theorem isRestriction_add (h : a.isRestriction a' = true) (h' : b.isRestriction b' = true) :
    (a.add b).isRestriction (a'.add b') = true := by
  rw [isRestriction_iff] at *
  refine ⟨satAdd_mono h.1 h'.1, fun k hk => ?_⟩
  obtain ⟨i', hi', j', hj', rfl⟩ := mem_add_max.1 hk
  obtain ⟨i, hi, hile⟩ := h.2 i' hi'
  obtain ⟨j, hj, hjle⟩ := h'.2 j' hj'
  exact ⟨_, mem_add_max.2 ⟨i, hi, j, hj, rfl⟩, satAdd_mono hile hjle⟩

theorem isRestriction_join (h : a.isRestriction a' = true) (h' : b.isRestriction b' = true) :
    (a.join b).isRestriction (a'.join b') = true := by
  rw [isRestriction_iff] at *
  refine ⟨min_le_min_of_le h.1 h'.1, fun k hk => ?_⟩
  obtain ⟨i', hi', j', hj', rfl⟩ := mem_join_max.1 hk
  obtain ⟨i, hi, hile⟩ := h.2 i' hi'
  obtain ⟨j, hj, hjle⟩ := h'.2 j' hj'
  exact ⟨_, mem_join_max.2 ⟨i, hi, j, hj, rfl⟩, max_le_max_of_le hile hjle⟩

/-- A sum of admitted numbers is admitted, as long as it is a word. -/
theorem Admits.add (hm : a.Admits m) (hn : b.Admits n) (hlt : m + n < UInt32.size) :
    (a.add b).Admits (m + n) := by
  constructor
  · show (satAdd a.min b.min).toNat ≤ m + n
    calc (satAdd a.min b.min).toNat ≤ a.min.toNat + b.min.toNat :=
          (toNat_satAdd ..).trans_le (Nat.min_le_left ..)
      _ ≤ m + n := Nat.add_le_add hm.1 hn.1
  · intro k hk
    obtain ⟨i, hi, j, hj, rfl⟩ := mem_add_max.1 hk
    have hle : m + n ≤ i.toNat + j.toNat := Nat.add_le_add (hm.2 i hi) (hn.2 j hj)
    rw [toNat_satAdd]
    omega

/-- Narrowing orders the bounds as inclusion orders what they admit, products are a commutative
monoid, and products, sums and joins keep bounds ordered and respect narrowing. -/
theorem ordered_algebra (a b c : Occurs) (ha : a.isOrdered = true) (hb : b.isOrdered = true) :
    -- a partial order, which is inclusion
    a.isRestriction a = true ∧
      (a.isRestriction b = true → b.isRestriction a = true → a = b) ∧
      (a.isRestriction b = true → b.isRestriction c = true → a.isRestriction c = true) ∧
      (a.isRestriction b = true ↔ {n | a.Admits n} ⊆ {n | b.Admits n}) ∧
    -- a commutative monoid
      (a.multiply b).multiply c = a.multiply (b.multiply c) ∧
      a.multiply b = b.multiply a ∧
      a.multiply once = a ∧ once.multiply a = a ∧
    -- ordered results that respect the order in each argument
      (∀ op ∈ [multiply, add, join], (op a b).isOrdered = true ∧
        (a.isRestriction b = true →
          (op a c).isRestriction (op b c) = true ∧ (op c a).isRestriction (op c b) = true)) ∧
    -- sums
      (∀ m n, a.Admits m → b.Admits n → m + n < UInt32.size → (a.add b).Admits (m + n)) := by
  refine ⟨isRestriction_refl a, isRestriction_antisymm, isRestriction_trans,
    isRestriction_iff_subset ha, multiply_assoc a b c, multiply_comm a b, multiply_once a,
    once_multiply a, ?_, fun m n => Admits.add⟩
  simp only [List.forall_mem_cons, List.not_mem_nil, false_implies, implies_true, and_true]
  have hrefl := isRestriction_refl c
  refine ⟨⟨isOrdered_multiply ha hb, fun h => ?_⟩, ⟨isOrdered_add ha hb, fun h => ?_⟩,
    ⟨isOrdered_join ha b, fun h => ?_⟩⟩
  · exact ⟨isRestriction_multiply h hrefl, isRestriction_multiply hrefl h⟩
  · exact ⟨isRestriction_add h hrefl, isRestriction_add hrefl h⟩
  · exact ⟨isRestriction_join h hrefl, isRestriction_join hrefl h⟩

/-- A maximum close to the largest word and none, and a particle that is never there. -/
theorem ordered_algebra_sample :
    isOrdered ⟨2, some 4294967290⟩ = true ∧ isOrdered ⟨1, none⟩ = true ∧
    {n | Admits ⟨2, some 4294967290⟩ n} ⊆ {n | Admits ⟨1, none⟩ n} ∧
    (multiply ⟨2, some 4294967290⟩ ⟨1, none⟩).multiply never =
      multiply ⟨2, some 4294967290⟩ (multiply ⟨1, none⟩ never) ∧
    (multiply ⟨2, some 4294967290⟩ never).isRestriction (multiply ⟨1, none⟩ never) = true ∧
    (add ⟨2, some 4294967290⟩ ⟨1, none⟩).Admits (4294967290 + 5) := by
  have hfirst : isOrdered ⟨2, some 4294967290⟩ = true := by decide
  have hsecond : isOrdered ⟨1, none⟩ = true := by decide
  have hnarrower : isRestriction ⟨2, some 4294967290⟩ ⟨1, none⟩ = true := by decide
  obtain ⟨-, -, -, hsubset, hassoc, -, -, -, hop, hadd⟩ :=
    ordered_algebra ⟨2, some 4294967290⟩ ⟨1, none⟩ never hfirst hsecond
  exact ⟨hfirst, hsecond, hsubset.1 hnarrower, hassoc,
    ((hop _ List.mem_cons_self).2 hnarrower).1,
    hadd 4294967290 5 (by decide) (by decide) (by decide)⟩

end Order

end Occurs

end Conform
