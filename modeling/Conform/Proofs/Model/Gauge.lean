import Conform.Proofs.Model.Closing
import Conform.Proofs.Model.Surplus
/-!
# What the tallies are good for

A walk does not know how many repetitions of a group the children stand for. It compares the least
number with the maximum and the greatest with the minimum. In a steady model that is good enough: the
two agree where several repetitions must be told apart, and any number is admitted elsewhere.
-/

namespace Conform

namespace Schema

/-- What can make up an occurrence of the group alone is firm. -/
def IsExact (s : Schema) (m : Member) : Prop :=
  ∀ g, m = .group g → ∀ x, s.IsLonely g x → s.Firm x

/-- A sequence that must occur several times, each of which is counted. -/
structure IsCounted (s : Schema) (g : GroupId) : Prop where
  sequence : (s.group g).compositor = .sequence
  min : 2 ≤ (s.group g).occurs.min.toNat
  members : (∀ m ∈ (s.group g).members, ∃ n ∈ (s.occurs m).max, n.toNat ≤ 1) ∨
    ∃ m ∈ (s.group g).members, ∃ m' ∈ (s.group g).members, m ≠ m' ∧
      s.isEmptiable m = false ∧ s.isEmptiable m' = false

/-- A sequence of members that need not occur, or a group without members. Nothing is expected where
it is missing. -/
def IsExcused (s : Schema) (m : Member) : Prop :=
  ∃ g, m = .group g ∧ ((s.group g).compositor = .sequence ∨ (s.group g).members = []) ∧
    ∀ x ∈ (s.group g).members, (s.occurs x).min.toNat = 0

/-- How the two tallies of a member are related. -/
structure Gauge (s : Schema) (counts ceilings : Tally) (m : Member) : Prop where
  zero : counts.count m = 0 → ceilings.count m = 0
  exact : s.IsExact m → ceilings.count m ≤ counts.count m
  choice : ∀ g, m = .group g → (s.group g).compositor = .choice →
    2 ≤ (s.group g).occurs.min.toNat → counts.count m ≤ ceilings.count m
  sequence : ∀ g, m = .group g → s.IsCounted g → ceilings.count m = 0

/-- With empty occurrences the number of occurrences of a member is admitted. -/
def Ends (s : Schema) (root : GroupId) (counts : Tally) (m : Member) : Prop :=
  ∃ j, (s.freed root m).Admits (counts.count m + j) ∧ (0 < j → s.Once (s.freed root) m [])

/-- A member of a sequence that is behind the walk in this repetition. -/
structure Settled (s : Schema) (root : GroupId) (counts ceilings : Tally) (m : Member) : Prop where
  gauge : Gauge s counts ceilings m
  bound : ¬s.Free root m → ∀ n ∈ (s.occurs m).max, counts.count m ≤ n.toNat
  present : counts.count m = 0 → s.isEmptiable m = true

open Components Walk

variable {s : Schema} {root g : GroupId} {counts ceilings counts' ceilings' : Tally}
  {m x : Member} {w : Walk} {ns : List QName} {k r least greatest : Nat} {E : List QName → Prop}

/-! ## Tallies -/

namespace Gauge

theorem congr (h : Gauge s counts ceilings m) (hcount : counts'.count m = counts.count m)
    (hceiling : ceilings'.count m = ceilings.count m) : Gauge s counts' ceilings' m := by
  refine ⟨?_, ?_, ?_, ?_⟩
  · rw [hcount, hceiling]
    exact h.zero
  · rw [hcount, hceiling]
    exact h.exact
  · rw [hcount, hceiling]
    exact h.choice
  · rw [hceiling]
    exact h.sequence

/-- Only groups have ceilings. -/
theorem leaf (hm : m.isGroup = false) (hceiling : ceilings.count m = 0) :
    Gauge s counts ceilings m := by
  have hno : ∀ g, m ≠ .group g := by
    rintro g rfl
    cases hm
  exact ⟨fun _ => hceiling, fun _ => hceiling ▸ Nat.zero_le _, fun g hg => absurd hg (hno g),
    fun g hg => absurd hg (hno g)⟩

theorem start (hcount : counts.count m = 0) (hceiling : ceilings.count m = 0) :
    Gauge s counts ceilings m :=
  ⟨fun _ => hceiling, fun _ => hceiling ▸ Nat.zero_le _, fun _ _ _ _ => hcount ▸ Nat.zero_le _,
    fun _ _ _ => hceiling⟩

/-- More repetitions of a group. -/
theorem add (h : Gauge s counts ceilings m) (hcount : counts'.count m = counts.count m + least)
    (hceiling : ceilings'.count m = ceilings.count m + greatest) (hpos : 0 < least)
    (hexact : s.IsExact m → greatest ≤ least)
    (hchoice : ∀ g, m = .group g → (s.group g).compositor = .choice →
      2 ≤ (s.group g).occurs.min.toNat → least ≤ greatest)
    (hsequence : ∀ g, m = .group g → s.IsCounted g → greatest = 0) :
    Gauge s counts' ceilings' m := by
  refine ⟨fun hzero => ?_, fun h' => ?_, fun g hg hc hmin => ?_, fun g hg hcounted => ?_⟩
  · omega
  · have hle := h.exact h'
    have hmore := hexact h'
    omega
  · have hle := h.choice g hg hc hmin
    have hmore := hchoice g hg hc hmin
    omega
  · have hnone := h.sequence g hg hcounted
    have hmore := hsequence g hg hcounted
    omega

theorem ceilingOrCount_pos (hpos : 0 < w.count m) : 0 < w.ceilingOrCount m := by
  unfold Walk.ceilingOrCount
  split
  · exact hpos
  · rename_i hne
    exact Nat.pos_of_ne_zero hne

theorem ceilingOrCount_le (h : Gauge s w.counts w.ceilings m) (hexact : s.IsExact m) :
    w.ceilingOrCount m ≤ w.count m := by
  unfold Walk.ceilingOrCount
  split
  · exact Nat.le_refl _
  · exact h.exact hexact

end Gauge

/-! ## Members that end -/

namespace Ends

theorem of_admits (h : (s.freed root m).Admits (counts.count m)) : Ends s root counts m :=
  ⟨0, h, fun hpos => absurd hpos (Nat.lt_irrefl 0)⟩

/-- A member ends that has occurred often enough, or an occurrence of it can be empty. -/
theorem enough (h : Ends s root counts m) :
    (s.freed root m).min.toNat ≤ counts.count m ∨ s.Once (s.freed root) m [] := by
  obtain ⟨j, hadmits, hempty⟩ := h
  rcases Nat.eq_zero_or_pos j with rfl | hpos
  · exact .inl hadmits.1
  · exact .inr (hempty hpos)

theorem settled (h : Ends s root counts m) (hs : s.Tractable root) (hin : s.Contains root m)
    (hgauge : Gauge s counts ceilings m) : Settled s root counts ceilings m := by
  refine ⟨hgauge, fun hfree n hn => ?_, fun hzero => ?_⟩
  · obtain ⟨j, hadmits, -⟩ := h
    rw [← max_of_not_free hfree] at hn
    exact (Nat.le_add_right _ _).trans (hadmits.2 n hn)
  · have hwidened := hs.built.widened_freed root
    refine (hwidened.words_nil_iff hs.built hasAlternatives_freed hin).1 ?_
    obtain ⟨j, hadmits, hempty⟩ := h
    rw [hzero, Nat.zero_add] at hadmits
    rcases Nat.eq_zero_or_pos j with rfl | hpos
    · exact .intro hadmits .zero
    · exact .intro hadmits (Times.pad (hempty hpos) .zero (Nat.zero_le _))

/-- Only a group of which an occurrence can be empty occurs less often than it must. -/
theorem hollow_of_lt (h : Ends s root counts m) (hs : s.Tractable root) (hin : s.Contains root m)
    (hvoid : ¬s.IsVoid m) (hlt : counts.count m < (s.occurs m).min.toNat) :
    ∃ g, m = .group g ∧ s.isHollow g = true := by
  have hmin : ¬(s.freed root m).min.toNat ≤ counts.count m := by
    rw [min_freed hvoid]
    exact Nat.not_le.2 hlt
  have honce := h.enough.resolve_left hmin
  cases m with
  | group g =>
      exact ⟨g, rfl, ((hs.built.widened_freed root).once_nil_iff hs.built hasAlternatives_freed
        hin).1 honce⟩
  | element e => cases honce
  | wildcard x => cases honce

/-- A group that occurs less often than it must is excused, or an alternative of which one
occurrence is enough. -/
theorem excused_or (h : Ends s root counts m) (hs : s.Tractable root)
    (hin : s.Contains root (.group g)) (hm : m ∈ (s.group g).members)
    (hlt : counts.count m < (s.occurs m).min.toNat) : s.IsExcused m ∨
      (s.occurs m).min.toNat = 1 ∧ (s.group g).compositor = .choice := by
  by_cases hvoid : s.IsVoid m
  · obtain ⟨sub, rfl, hnil⟩ := hvoid
    exact .inl ⟨sub, rfl, .inr hnil, hnil ▸ List.forall_mem_nil _⟩
  obtain ⟨sub, rfl, hhollow⟩ := h.hollow_of_lt hs (hin.member hm) hvoid hlt
  rcases hs.steady.hollow sub (hin.member hm) hhollow with hzero | ⟨hsequence, hmembers⟩ |
    ⟨hone, houter⟩
  · have hmin : (s.occurs (.group sub)).min.toNat = 0 := hzero
    omega
  · exact .inl ⟨sub, rfl, .inl hsequence, hmembers⟩
  · exact .inr ⟨hone, houter g hin hm⟩

/-- A member of a sequence that is missed is excused. -/
theorem excused (h : Ends s root counts m) (hs : s.Tractable root)
    (hin : s.Contains root (.group g)) (hm : m ∈ (s.group g).members)
    (hsequence : (s.group g).compositor = .sequence)
    (hmissing : (s.occurs m).isMissing (max (counts.count m) (ceilings.count m)) = true) :
    s.IsExcused m := by
  have hlt : max (counts.count m) (ceilings.count m) < (s.occurs m).min.toNat := by
    simpa [Occurs.isMissing] using hmissing
  rcases h.excused_or hs hin hm (by omega) with hexcused | ⟨-, hchoice⟩
  · exact hexcused
  · rw [hsequence] at hchoice
    cases hchoice

/-- A group that is an alternative and is missed is excused. -/
theorem excused_alternative {sub : GroupId} (h : Ends s root w.counts (.group sub))
    (hs : s.Tractable root) (hin : s.Contains root (.group g))
    (hm : .group sub ∈ (s.group g).members) (hchoice : (s.group g).compositor = .choice)
    (hgauge : Gauge s w.counts w.ceilings (.group sub)) (hpos : 0 < w.count (.group sub))
    (hmissing : (s.group sub).occurs.isMissing (w.ceilingOrCount (.group sub)) = true) :
    s.IsExcused (.group sub) := by
  have hlt : w.ceilingOrCount (.group sub) < (s.group sub).occurs.min.toNat := by
    simpa [Occurs.isMissing] using hmissing
  have hfloor := Gauge.ceilingOrCount_pos hpos
  by_cases hcount : w.counts.count (.group sub) < (s.group sub).occurs.min.toNat
  · rcases h.excused_or hs hin hm hcount with hexcused | ⟨hone, -⟩
    · exact hexcused
    · have hmin : (s.group sub).occurs.min.toNat = 1 := hone
      omega
  -- the greatest number of repetitions is not less than the least one
  refine absurd ?_ (Nat.not_lt.2 (Nat.not_lt.1 hcount))
  unfold Walk.ceilingOrCount at hlt
  split at hlt
  · exact hlt
  rename_i hne
  have hmin : 2 ≤ (s.group sub).occurs.min.toNat := by omega
  cases hc : (s.group sub).compositor with
  | all => exact absurd hc (hs.compositor sub (hin.member hm))
  | choice => exact Nat.lt_of_le_of_lt (hgauge.choice sub rfl hc hmin) hlt
  | sequence =>
      have hcounted : s.IsCounted sub := ⟨hc, hmin, hs.steady.counted g sub hin hchoice hm hc hmin⟩
      exact absurd (hgauge.sequence sub rfl hcounted) hne

end Ends

/-! ## Quotients -/

/-- The bounds of a firm particle divide alike. -/
theorem Firm.span (h : s.Firm m) (hs : s.Built) (hmax : (s.occurs m).max ≠ some 0) :
    ∃ n, (s.occurs m).max = some n ∧ n.toNat = max 1 (s.occurs m).min.toNat := by
  have hcases : (s.occurs m).max = some 1 ∨ (s.occurs m).max = some (s.occurs m).min := by
    cases h with
    | leaf _ hcases => exact hcases
    | never hzero => exact absurd hzero hmax
    | group hcases => exact hcases.imp_right And.left
  rcases hcases with hone | hmin
  · have hle := hs.min_le_max m 1 hone
    have hnat : (1 : UInt32).toNat = 1 := rfl
    exact ⟨1, hone, by omega⟩
  · have hpos := Occurs.max_pos hmax hmin
    exact ⟨_, hmin, by omega⟩

/-- Firm particles in a group that can make up an occurrence alone are exact themselves. -/
theorem Firm.isExact (h : s.Firm m) (hmax : (s.occurs m).max ≠ some 0) : s.IsExact m := by
  rintro g rfl x hx
  exact h.of_lonely hmax hx

theorem div_le_ceilDiv (n d : Nat) (hd : 0 < d) : n / d ≤ ceilDiv n d :=
  Nat.div_le_of_le_mul (by
    rw [Nat.mul_comm]
    exact le_ceilDiv_mul n hd)

theorem ceilDiv_le {n d r : Nat} (hd : 0 < d) (h : n ≤ r * d) : ceilDiv n d ≤ r := by
  have hlt : ceilDiv n d < r + 1 := by
    refine Nat.lt_of_mul_lt_mul_right (a := d) ?_
    have hhigh := ceilDiv_mul_lt n hd
    rw [Nat.add_mul, Nat.one_mul]
    omega
  omega

/-! ## Alternatives -/

/-- The repetitions that the occurrences of an alternative stand for at least. -/
def leastOf (o : Occurs) (k : Nat) : Nat :=
  match o.max with
  | none => 1
  | some n => if n = 0 then 1 else ceilDiv k n.toNat

/-- The repetitions that the occurrences of an alternative stand for at most. -/
def greatestOf (o : Occurs) (k : Nat) : Nat := max 1 (k / max 1 o.min.toNat)

theorem leastOf_pos {o : Occurs} (hk : 0 < k) : 0 < leastOf o k := by
  unfold leastOf
  split
  · exact Nat.one_pos
  · split
    · exact Nat.one_pos
    · rename_i hne
      exact ceilDiv_pos hk (Nat.pos_of_ne_zero fun hzero => hne (UInt32.toNat_inj.1 hzero))

theorem leastOf_of_some {o : Occurs} {n : UInt32} (hmax : o.max = some n) (hn : 0 < n.toNat) :
    leastOf o k = ceilDiv k n.toNat := by
  have hne : n ≠ 0 := by
    rintro rfl
    exact absurd hn (Nat.lt_irrefl 0)
  simp [leastOf, hmax, hne]

theorem leastOf_le {o : Occurs} (hr : 1 ≤ r) (hmax : ∀ n ∈ o.max, k ≤ r * n.toNat) :
    leastOf o k ≤ r := by
  unfold leastOf
  split
  · exact hr
  · rename_i n hn
    split
    · exact hr
    · rename_i hne
      exact ceilDiv_le (Nat.pos_of_ne_zero fun hzero => hne (UInt32.toNat_inj.1 hzero)) (hmax n hn)

theorem le_greatestOf {o : Occurs} (hmin : r * o.min.toNat ≤ k) (hrk : r ≤ k) :
    r ≤ greatestOf o k := by
  refine Nat.le_trans ?_ (Nat.le_max_right _ _)
  rw [Nat.le_div_iff_mul_le (Nat.lt_of_lt_of_le Nat.one_pos (Nat.le_max_left _ _))]
  rcases Nat.le_total o.min.toNat 1 with hle | hle
  · rw [Nat.max_eq_left hle, Nat.mul_one]
    exact hrk
  · rw [Nat.max_eq_right hle]
    exact hmin

/-- Occurrences that can be dealt out to repetitions stand for a range of them. -/
theorem leastOf_le_greatestOf {o : Occurs} (hk : 0 < k) (hr : 1 ≤ r) (hmin : r * o.min.toNat ≤ k)
    (hmax : ∀ n ∈ o.max, k ≤ r * n.toNat) : leastOf o k ≤ greatestOf o k := by
  rcases Nat.eq_zero_or_pos o.min.toNat with hzero | hpos
  · -- each occurrence may be a repetition of its own
    have hmost : leastOf o k ≤ k := leastOf_le hk fun n hn => by
      refine Nat.le_mul_of_pos_right k (Nat.pos_of_ne_zero fun hn' => ?_)
      have hle := hmax n hn
      rw [hn', Nat.mul_zero] at hle
      omega
    refine hmost.trans (le_greatestOf ?_ (Nat.le_refl k))
    rw [hzero, Nat.mul_zero]
    exact Nat.zero_le k
  · exact (leastOf_le hr hmax).trans
      (le_greatestOf hmin ((Nat.le_mul_of_pos_right r hpos).trans hmin))

/-- The occurrences of a firm alternative stand for one number of repetitions. -/
theorem Firm.greatestOf_le (h : s.Firm m) (hs : s.Built) (hmax : (s.occurs m).max ≠ some 0)
    {k' : Nat} (hk : 0 < k) (hle : k' ≤ k) :
    greatestOf (s.occurs m) k' ≤ leastOf (s.occurs m) k := by
  obtain ⟨n, hn, hspan⟩ := h.span hs hmax
  have hpos : 0 < n.toNat := by omega
  rw [leastOf_of_some hn hpos, greatestOf, ← hspan]
  have hdiv : k' / n.toNat ≤ k / n.toNat := Nat.div_le_div_right hle
  have hceil := div_le_ceilDiv k n.toNat hpos
  have hone := ceilDiv_pos hk hpos
  omega

/-- Repetitions without a child need not be counted. -/
theorem Still.pad {i : Nat} (hempty : s.Once (s.freed root) m [])
    (h : Still s root m (k + i) E ns) : Still s root m k E ns := by
  obtain ⟨j, u, v, rfl, htimes, hadmits, hE⟩ := h
  exact ⟨i + j, u, v, rfl, htimes.pad hempty (Nat.le_add_left _ _), Nat.add_assoc k i j ▸ hadmits, hE⟩

theorem not_wide (hmin : 2 ≤ (s.group g).occurs.min.toNat) : ¬s.Wide root g := by
  intro hwide
  have hle := hwide.min_le_one
  omega

/-- The occurrences of an alternative that is a leaf are counted as repetitions of its choice. -/
theorem Still.count_leaf {i : Nat} (hs : s.Tractable root) (hin : s.Contains root (.group g))
    (hchoice : (s.group g).compositor = .choice) (hm : m ∈ (s.group g).members)
    (hmax : (s.occurs m).max ≠ some 0) (hk : 0 < k) (hr : 1 ≤ r)
    (hmin : r * (s.occurs m).min.toNat ≤ k) (hle : ∀ n ∈ (s.occurs m).max, k ≤ r * n.toNat)
    (h : Still s root (.group g) (i + r) E ns) :
    Still s root (.group g) (i + leastOf (s.occurs m) k) E ns := by
  have hleast := leastOf_le hr hle
  have hpos := leastOf_pos (o := s.occurs m) hk
  rcases Nat.eq_or_lt_of_le hleast with heq | hlt
  · rw [heq]
    exact h
  have hrepeats : s.Repeats root g := by
    obtain ⟨j, -, -, -, -, hadmits, -⟩ := h
    exact repeats_of_admits (by omega) hadmits
  have hlonely : s.IsLonely g m := ⟨hm, fun hno => absurd hchoice hno⟩
  rcases hs.steady.firm_or hin hrepeats hlonely (hs.compositor g hin) hmax with hfirm | ⟨hwide, -⟩
  · obtain ⟨n, hn, hspan⟩ := hfirm.span hs.built hmax
    have hn' : 0 < n.toNat := by omega
    rw [leastOf_of_some hn hn'] at hlt ⊢
    have hkn := hle n hn
    by_cases hzero : (s.occurs m).min.toNat = 0
    · -- what is not counted are repetitions without a child
      have hone : n.toNat = 1 := by omega
      have hsame := ceilDiv_mul_self (n := k) hn'
      rw [hone, Nat.mul_one] at hsame
      rw [hone, hsame] at hlt ⊢
      have hempty : s.Once (s.freed root) (.group g) [] :=
        .choice hchoice hm ((hs.built.widened_freed root).words_of_min hzero)
      have hsum : i + r = i + k + (r - k) := by omega
      exact Still.pad hempty (hsum ▸ h)
    · have hsame : k = r * n.toNat := by
        have heq : n.toNat = (s.occurs m).min.toNat := by omega
        rw [← heq] at hmin
        omega
      rw [hsame, ceilDiv_mul_self hn'] at hlt
      omega
  · exact h.wide hwide (by omega)

/-- A settled alternative does not stand for more than one repetition, unless the choice may be
repeated at will. -/
theorem Settled.leastOf_eq_one (h : Settled s root counts ceilings m) (hpos : 0 < counts.count m)
    (hfree : ¬s.Free root m) : leastOf (s.occurs m) (counts.count m) = 1 := by
  have hle : leastOf (s.occurs m) (counts.count m) ≤ 1 :=
    leastOf_le (Nat.le_refl 1) fun n hn => by
      rw [Nat.one_mul]
      exact h.bound hfree n hn
  have hleast := leastOf_pos (o := s.occurs m) hpos
  omega

/-- The occurrences of an alternative that is a group are one repetition of its choice. -/
theorem Still.count_group {i : Nat} (hs : s.Tractable root) (hm : m ∈ (s.group g).members)
    (hsettled : Settled s root counts ceilings m) (hpos : 0 < counts.count m)
    (h : Still s root (.group g) (i + 1) E ns) :
    Still s root (.group g) (i + leastOf (s.occurs m) (counts.count m)) E ns := by
  by_cases hfree : s.Free root m
  · have hleast := leastOf_pos (o := s.occurs m) hpos
    exact h.wide (hfree.of_mem hs.built hm).1 (by omega)
  · rw [hsettled.leastOf_eq_one hpos hfree]
    exact h

/-- The tallies of a choice after the end of an alternative. -/
theorem Gauge.count_alternative (h : Gauge s w.counts w.ceilings (.group g)) (hs : s.Built)
    (hchoice : (s.group g).compositor = .choice) (hm : m ∈ (s.group g).members)
    (hmax : (s.occurs m).max ≠ some 0) (hgauge : Gauge s w.counts w.ceilings m)
    (hpos : 0 < w.count m)
    (hcount : counts'.count (.group g) =
      w.counts.count (.group g) + leastOf (s.occurs m) (w.count m))
    (hceiling : ceilings'.count (.group g) =
      w.ceilings.count (.group g) + greatestOf (s.occurs m) (w.ceilingOrCount m))
    (hle : 2 ≤ (s.group g).occurs.min.toNat →
      leastOf (s.occurs m) (w.count m) ≤ greatestOf (s.occurs m) (w.ceilingOrCount m)) :
    Gauge s counts' ceilings' (.group g) := by
  refine h.add hcount hceiling (leastOf_pos hpos) (fun hexact => ?_) (fun g' hg _ hmin => ?_)
    fun g' hg hcounted => ?_
  · have hfirm := hexact g rfl m ⟨hm, fun hno => absurd hchoice hno⟩
    exact hfirm.greatestOf_le hs hmax hpos (hgauge.ceilingOrCount_le (hfirm.isExact hmax))
  · cases hg
    exact hle hmin
  · cases hg
    have hsequence := hcounted.sequence
    rw [hchoice] at hsequence
    cases hsequence

/-! ## Sequences -/

/-- Members of a sequence beside which none must occur. -/
theorem isLonely_of_split {before later : List Member}
    (hmembers : (s.group g).members = before ++ m :: later)
    (hbefore : ∀ x ∈ before, s.isEmptiable x = true)
    (hlater : ∀ x ∈ later, s.isEmptiable x = true) : s.IsLonely g m := by
  refine ⟨by simp [hmembers], fun _ x hx hne => ?_⟩
  rw [hmembers, List.mem_append, List.mem_cons] at hx
  rcases hx with hx | rfl | hx
  · exact hbefore x hx
  · exact absurd rfl hne
  · exact hlater x hx

/-- The greatest number of occurrences is one if no more than one is counted. -/
theorem Firm.ceilingOrCount_eq_one (h : s.Firm m) (hmax : (s.occurs m).max ≠ some 0)
    (hgauge : Gauge s w.counts w.ceilings m) (hpos : 0 < w.count m) (hle : w.count m ≤ 1) :
    w.ceilingOrCount m = 1 := by
  have hfloor := Gauge.ceilingOrCount_pos hpos
  have hceiling := hgauge.ceilingOrCount_le (h.isExact hmax)
  omega

/-- A sequence of which each repetition is counted. The first member that has occurred says so, or a
later one that must occur. -/
theorem IsCounted.counts_one (h : s.IsCounted g) (hs : s.Tractable root)
    (hin : s.Contains root (.group g)) {before later : List Member}
    (hmembers : (s.group g).members = before ++ m :: later)
    (hbefore : ∀ x ∈ before, s.isEmptiable x = true) (hpos : 0 < w.count m)
    (hm : Settled s root w.counts w.ceilings m) :
    (w.ceilingOrCount m = 1 || later.any fun x => !s.isEmptiable x) = true := by
  rw [Bool.or_eq_true, decide_eq_true_eq, List.any_eq_true]
  by_contra hno
  rw [not_or] at hno
  obtain ⟨hone, hlater⟩ := hno
  have hempty : ∀ x ∈ later, s.isEmptiable x = true := by
    intro x hx
    by_contra hx'
    exact hlater ⟨x, hx, by simpa using hx'⟩
  have hmem : m ∈ (s.group g).members := by simp [hmembers]
  have hfree : ¬s.Free root m := fun hfree =>
    not_wide h.min (hfree.of_mem hs.built hmem).1
  have hmax : (s.occurs m).max ≠ some 0 := by
    intro hzero
    have hle := hm.bound hfree 0 hzero
    exact absurd hpos (Nat.not_lt.2 hle)
  rcases h.members with hall | ⟨x, hx, y, hy, hne, hxempty, hyempty⟩
  · obtain ⟨n, hn, hle⟩ := hall m hmem
    have hrepeats : s.Repeats root g := by
      refine .inl ⟨fun hzero => ?_, fun hsingle => ?_⟩
      · have hle' : (s.group g).occurs.min.toNat ≤ 0 := hs.built.min_le_max (.group g) 0 hzero
        have hmin := h.min
        omega
      · have hle' : (s.group g).occurs.min.toNat ≤ 1 := hs.built.min_le_max (.group g) 1 hsingle
        have hmin := h.min
        omega
    have hlonely := isLonely_of_split hmembers hbefore hempty
    rcases hs.steady.firm_or hin hrepeats hlonely (hs.compositor g hin) hmax with
      hfirm | ⟨hwide, -⟩
    · have hcount := hm.bound hfree n hn
      exact hone (hfirm.ceilingOrCount_eq_one hmax hm.gauge hpos (hcount.trans hle))
    · exact not_wide h.min hwide
  · -- one of the two members that must occur comes later
    have heq : ∀ z ∈ (s.group g).members, s.isEmptiable z = false → z = m := by
      intro z hz hzempty
      rw [hmembers, List.mem_append, List.mem_cons] at hz
      rcases hz with hz | rfl | hz
      · rw [hbefore z hz] at hzempty
        cases hzempty
      · rfl
      · rw [hempty z hz] at hzempty
        cases hzempty
    exact hne ((heq x hx hxempty).trans (heq y hy hyempty).symm)

/-- The first member that has occurred. -/
theorem exists_dropWhile {members : List Member} (h : ∃ x ∈ members, 0 < w.count x) :
    ∃ before m later, members = before ++ m :: later ∧
      members.dropWhile (fun x => w.count x = 0) = m :: later ∧
      (∀ x ∈ before, w.count x = 0) ∧ 0 < w.count m := by
  induction members with
  | nil =>
      obtain ⟨x, hx, -⟩ := h
      cases hx
  | cons y members ih =>
      by_cases hy : w.count y = 0
      · obtain ⟨before, m, later, rfl, hdrop, hbefore, hpos⟩ := ih (by
          obtain ⟨x, hx, hpos⟩ := h
          rcases List.mem_cons.1 hx with rfl | hx
          · omega
          · exact ⟨x, hx, hpos⟩)
        refine ⟨y :: before, m, later, rfl, ?_, fun x hx => ?_, hpos⟩
        · rw [List.dropWhile_cons_of_pos (by simpa using hy)]
          exact hdrop
        · rcases List.mem_cons.1 hx with rfl | hx
          · exact hy
          · exact hbefore x hx
      · refine ⟨[], y, members, rfl, ?_, List.forall_mem_nil _, Nat.pos_of_ne_zero hy⟩
        exact List.dropWhile_cons_of_neg (by simpa using hy)

/-- The end of a repetition of a sequence is counted. -/
theorem Still.count_sequence (hs : s.Tractable root) (hin : s.Contains root w.hereMember)
    (hsequence : (s.group w.here.group).compositor = .sequence)
    (hsettled : ∀ x ∈ (s.group w.here.group).members, Settled s root w.counts w.ceilings x)
    (hcounted : ∃ x ∈ (s.group w.here.group).members, 0 < w.count x)
    (hgauge : Gauge s w.counts w.ceilings w.hereMember)
    (h : Still s root w.hereMember (w.counts.count w.hereMember + 1) E ns) :
    Gauge s (w.countSequence s).counts (w.countSequence s).ceilings w.hereMember ∧
      0 < (w.countSequence s).counts.count w.hereMember ∧
      Still s root w.hereMember ((w.countSequence s).counts.count w.hereMember) E ns := by
  have hvacuous : ∀ {P : Prop}, ∀ g, w.hereMember = .group g → (s.group g).compositor = .choice →
      P := by
    intro P g hg hchoice
    cases hg
    rw [hsequence] at hchoice
    cases hchoice
  obtain ⟨before, m, later, hmembers, hdrop, hbefore, hpos⟩ : ∃ before m later,
      (s.group w.here.group).members = before ++ m :: later ∧
      (s.group w.here.group).members.dropWhile (fun x => w.count x = 0) = m :: later ∧
      (∀ x ∈ before, w.count x = 0) ∧ 0 < w.count m :=
    exists_dropWhile hcounted
  have hbeforeEmpty : ∀ x ∈ before, s.isEmptiable x = true := fun x hx =>
    (hsettled x (by simp [hmembers, hx])).present (hbefore x hx)
  have hmem : m ∈ (s.group w.here.group).members := by simp [hmembers]
  have hm := hsettled m hmem
  by_cases hone : (w.ceilingOrCount m = 1 || later.any fun x => !s.isEmptiable x) = true
  · have hsingle : w.countSequence s = { w with counts := w.counts.add w.hereMember 1 } := by
      unfold Walk.countSequence
      rw [hdrop]
      exact if_pos hone
    rw [hsingle]
    have hcount : (w.counts.add w.hereMember 1).count w.hereMember =
        w.counts.count w.hereMember + 1 := by simp
    refine ⟨hgauge.add hcount (Nat.add_zero _).symm Nat.one_pos (fun _ => Nat.zero_le _)
      (fun g hg hchoice => hvacuous g hg hchoice) fun _ _ _ => rfl, ?_, ?_⟩
    · rw [hcount]
      exact Nat.succ_pos _
    · rw [hcount]
      exact h
  · obtain ⟨most, hnone, hsome, hseveral⟩ := countSequence_several hdrop hone
    rw [hseveral]
    have hcount : (w.counts.add w.hereMember (max 1 (w.count m / most))).count w.hereMember =
        w.counts.count w.hereMember + max 1 (w.count m / most) := by simp
    have hceiling : (w.ceilings.add w.hereMember (max 1 (w.ceilingOrCount m /
        max 1 (s.occurs m).min.toNat))).count w.hereMember = w.ceilings.count w.hereMember +
          max 1 (w.ceilingOrCount m / max 1 (s.occurs m).min.toNat) := by simp
    have hlater : ∀ x ∈ later, s.isEmptiable x = true := by
      intro x hx
      by_contra hno
      refine hone ?_
      rw [Bool.or_eq_true, List.any_eq_true]
      exact .inr ⟨x, hx, by simpa using hno⟩
    have hlonely := isLonely_of_split hmembers hbeforeEmpty hlater
    have hmax : (s.occurs m).max ≠ some 0 := by
      intro hzero
      by_cases hfree : s.Free root m
      · exact hfree.max_ne_zero hzero
      · exact absurd hpos (Nat.not_lt.2 (hm.bound hfree 0 hzero))
    refine ⟨hgauge.add hcount hceiling (by omega) (fun hexact => ?_)
      (fun g hg hchoice => hvacuous g hg hchoice) fun g hg hcounted' => ?_, ?_, ?_⟩
    · have hfirm := hexact w.here.group rfl m hlonely
      obtain ⟨n, hn, hspan⟩ := hfirm.span hs.built hmax
      have hmost : most = n.toNat := hsome n hn fun hzero => hmax (hzero ▸ hn)
      rw [hmost, hspan]
      have hle := hm.gauge.ceilingOrCount_le (hfirm.isExact hmax)
      have hdiv := Nat.div_le_div_right (c := max 1 (s.occurs m).min.toNat) hle
      omega
    · cases hg
      exact absurd (hcounted'.counts_one hs hin hmembers hbeforeEmpty hpos hm) hone
    · rw [hcount]
      omega
    · rw [hcount]
      by_cases hfree : s.Free root m
      · exact h.wide (hfree.of_mem hs.built hmem).1 (by omega)
      · -- a member within its maximum stands for one repetition
        have hle : w.count m / most ≤ 1 := by
          cases hn : (s.occurs m).max with
          | none =>
              rw [hnone hn, Nat.div_self hpos]
          | some n =>
              rw [hsome n hn fun hzero => hmax (hzero ▸ hn)]
              exact Nat.div_le_of_le_mul (by
                rw [Nat.mul_one]
                exact hm.bound hfree n hn)
        rw [Nat.max_eq_left hle]
        exact h

end Schema

/-- The end of an alternative that has occurred. -/
theorem Walk.closeInChoice_pos {s : Schema} {w : Walk} {m : Member} (hpos : 0 < w.count m) :
    w.closeInChoice s m = ((s.occurs m).isMissing (w.ceilingOrCount m),
      ⟨w.root, w.version, ⟨w.here.group, items s w.version w.here.group, false⟩, w.outer,
        (w.counts.add w.hereMember (Schema.leastOf (s.occurs m) (w.count m))).set m 0,
        w.ceilings.add w.hereMember (Schema.greatestOf (s.occurs m) (w.ceilingOrCount m)),
        w.current⟩) := by
  unfold closeInChoice
  rw [if_neg (Nat.ne_of_gt hpos)]
  rfl

end Conform
