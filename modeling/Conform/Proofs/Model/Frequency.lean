import Conform.Proofs.Model.Derivations
import Conform.Proofs.Model.Sizes
import Conform.Proofs.Schema.Ancestry
/-!
# How often a leaf occurs

In a derivation from a group every leaf occurs as often as its own bounds, multiplied with those of
all groups around it, admit. A leaf in a choice with alternatives need not occur. The products stop
at the largest word, which no list of children that is shorter than that goes beyond.
-/

namespace Conform

namespace Occurs

/-- The bounds admit a number of occurrences, where the largest word is no maximum. -/
def AdmitsSaturated (o : Occurs) (n : Nat) : Prop :=
  o.min.toNat ≤ n ∧ ∀ k ∈ o.max, k.toNat < UInt32.size - 1 → n ≤ k.toNat

variable {o inner outer : Occurs} {n total : Nat}

theorem Admits.saturated (h : o.Admits n) : o.AdmitsSaturated n :=
  ⟨h.1, fun k hk _ => h.2 k hk⟩

theorem AdmitsSaturated.admits (h : o.AdmitsSaturated n) (hn : n < UInt32.size) : o.Admits n := by
  refine ⟨h.1, fun k hk => ?_⟩
  by_cases hlt : k.toNat < UInt32.size - 1
  · exact h.2 k hk hlt
  · omega

theorem AdmitsSaturated.optional (h : o.AdmitsSaturated n) :
    { o with min := 0 }.AdmitsSaturated n := ⟨Nat.zero_le _, h.2⟩

/-- A number of occurrences with as many in each as the inner bounds admit. -/
theorem AdmitsSaturated.multiply (hn : outer.Admits n) (hleast : n * inner.min.toNat ≤ total)
    (hmost : ∀ k ∈ inner.max, k.toNat < UInt32.size - 1 → total ≤ n * k.toNat)
    (hzero : n = 0 → total = 0) : (inner.multiply outer).AdmitsSaturated total := by
  constructor
  · show (satMul inner.min outer.min).toNat ≤ total
    rw [toNat_satMul, Nat.mul_comm]
    exact (Nat.min_le_left ..).trans ((Nat.mul_le_mul_right _ hn.1).trans hleast)
  · intro k hk hlt
    obtain ⟨-, hmax⟩ := hn
    simp only [Occurs.multiply] at hk
    cases hinner : inner.max with
    | none =>
        rw [hinner] at hk
        cases houter : outer.max with
        | none =>
            rw [houter] at hk
            cases hk
        | some r =>
            -- an unbounded number in no occurrence
            simp only [houter, Option.mem_def, Option.ite_none_right_eq_some] at hk
            obtain ⟨rfl, -⟩ := hk
            rw [hzero (Nat.le_zero.1 (hmax 0 houter))]
            exact Nat.zero_le _
    | some j =>
        have hj := hmost j hinner
        rw [hinner] at hk
        cases houter : outer.max with
        | none =>
            simp only [houter, Option.mem_def, Option.ite_none_right_eq_some] at hk
            obtain ⟨rfl, -⟩ := hk
            exact (hj (by decide)).trans (Nat.zero_le _)
        | some r =>
            simp only [houter, Option.mem_def, Option.some.injEq] at hk
            rw [← hk, toNat_satMul] at hlt ⊢
            have hr := hmax r houter
            by_cases hr0 : r.toNat = 0
            · rw [hzero (by omega)]
              exact Nat.zero_le _
            · have hle : j.toNat ≤ j.toNat * r.toNat :=
                Nat.le_mul_of_pos_right _ (Nat.pos_of_ne_zero hr0)
              have htotal := hj (by omega)
              have hmul : n * j.toNat ≤ j.toNat * r.toNat := by
                rw [Nat.mul_comm]
                exact Nat.mul_le_mul_left _ hr
              omega

end Occurs

namespace Components

variable {c : Components} {b : Member → Occurs} {g : GroupId} {m p : Member} {ms : List Member}
  {d : List (QName × Member)} {o : Occurs}

/-- How often a leaf occurs in a derivation. -/
def occurrences (p : Member) (d : List (QName × Member)) : Nat := d.countP fun a => a.2 = p

@[simp] theorem occurrences_append (p : Member) (d e : List (QName × Member)) :
    occurrences p (d ++ e) = occurrences p d + occurrences p e := List.countP_append

theorem occurrences_le (p : Member) (d : List (QName × Member)) : occurrences p d ≤ d.length :=
  List.countP_le_length

/-- A particle does not occur in what does not cover it. -/
theorem Derives.occurrences_eq_zero (h : c.Derives b m d) (hp : ¬ c.Covers m p) :
    occurrences p d = 0 := by
  refine List.countP_eq_zero.2 fun a ha => ?_
  rw [decide_eq_true_eq]
  rintro rfl
  exact hp (h.covers ha)

theorem DerivesTimes.mul_le_occurrences {least n : Nat} (h : c.DerivesTimes b m n d)
    (hleast : ∀ e, c.DerivesOnce b m e → least ≤ occurrences p e) :
    n * least ≤ occurrences p d := by
  induction n generalizing d with
  | zero => simp
  | succ n ih =>
      cases h with
      | succ honce hrest =>
          have hfirst := hleast _ honce
          have hmore := ih hrest
          rw [Nat.succ_mul, occurrences_append]
          omega

theorem DerivesTimes.occurrences_le_mul {most n : Nat} (h : c.DerivesTimes b m n d)
    (hmost : ∀ e, c.DerivesOnce b m e → occurrences p e ≤ most) :
    occurrences p d ≤ n * most := by
  induction n generalizing d with
  | zero =>
      cases h
      exact Nat.zero_le _
  | succ n ih =>
      cases h with
      | succ honce hrest =>
          have hfirst := hmost _ honce
          have hmore := ih hrest
          rw [Nat.succ_mul, occurrences_append]
          omega

/-- A leaf by itself occurs as often as its bounds admit. -/
theorem Derives.admits_leaf (hm : m.isGroup = false) (h : c.Derives b m d) :
    (b m).Admits (occurrences m d) := by
  cases h with
  | @intro _ n _ hadmits htimes =>
      have honce : ∀ e, c.DerivesOnce b m e → occurrences m e = 1 := by
        intro e he
        cases he with
        | leaf => simp [occurrences]
        | sequence => cases hm
        | choice => cases hm
        | all => cases hm
      have hleast := htimes.mul_le_occurrences fun e he => (honce e he).ge
      have hmost := htimes.occurrences_le_mul fun e he => (honce e he).le
      rwa [Nat.le_antisymm hmost hleast, Nat.mul_one]

/-- In a row of members a particle occurs where the one that covers it does. -/
theorem DerivesRow.exists_derives (h : c.DerivesRow b ms d) (hnodup : ms.Nodup) (hm : m ∈ ms)
    (hothers : ∀ x ∈ ms, x ≠ m → ¬ c.Covers x p) :
    ∃ e, c.Derives b m e ∧ occurrences p d = occurrences p e := by
  have hnone : ∀ {ms d}, c.DerivesRow b ms d → (∀ x ∈ ms, ¬ c.Covers x p) →
      occurrences p d = 0 := by
    intro ms
    induction ms with
    | nil =>
        intro d h _
        cases h
        rfl
    | cons x ms ih =>
        intro d h hms
        cases h with
        | cons hfirst hrest =>
            rw [occurrences_append, hfirst.occurrences_eq_zero (hms x List.mem_cons_self),
              ih hrest fun y hy => hms y (List.mem_cons_of_mem _ hy)]
  induction ms generalizing d with
  | nil => cases hm
  | cons x ms ih =>
      obtain ⟨hx, hnodup⟩ := List.nodup_cons.1 hnodup
      cases h with
      | @cons _ _ e _ hfirst hrest =>
          by_cases heq : x = m
          · subst heq
            refine ⟨e, hfirst, ?_⟩
            rw [occurrences_append, hnone hrest fun y hy =>
              hothers y (List.mem_cons_of_mem _ hy) fun hyx => hx (hyx ▸ hy)]
            rfl
          · have hm' := (List.mem_cons.1 hm).resolve_left (Ne.symm heq)
            obtain ⟨e', he', hsame⟩ := ih hrest hnodup hm' fun y hy =>
              hothers y (List.mem_cons_of_mem _ hy)
            refine ⟨e', he', ?_⟩
            rw [occurrences_append, hsame,
              hfirst.occurrences_eq_zero (hothers x List.mem_cons_self heq), Nat.zero_add]

/-- How often a particle occurs in one occurrence of a group, from how often it does in the member
that covers it. -/
theorem DerivesOnce.admitsSaturated (hc : c.Forest) (hm : m ∈ (c.group g).members)
    (hp : c.Covers m p) (ho : ∀ e, c.Derives b m e → o.AdmitsSaturated (occurrences p e))
    (h : c.DerivesOnce b (.group g) d) :
    (if c.isAlternative g then { o with min := 0 } else o).AdmitsSaturated (occurrences p d) := by
  have hothers : ∀ x ∈ (c.group g).members, x ≠ m → ¬ c.Covers x p :=
    fun x hx hne hxp => hne (hxp.unique hc hx hm hp)
  have hrow : ∀ {ms}, (c.group g).compositor ≠ .choice → ms.Perm (c.group g).members →
      c.DerivesRow b ms d →
      (if c.isAlternative g then { o with min := 0 } else o).AdmitsSaturated
        (occurrences p d) := by
    intro ms hchoice hperm hrow
    rw [if_neg (by simp [isAlternative, hchoice])]
    obtain ⟨e, he, heq⟩ := hrow.exists_derives (hperm.nodup_iff.2 (hc.nodup g))
      (hperm.mem_iff.2 hm) fun x hx => hothers x (hperm.subset hx)
    exact heq ▸ ho e he
  cases h with
  | leaf hn => cases hn
  | sequence hsequence hrow' => exact hrow (by simp [hsequence]) (List.Perm.refl _) hrow'
  | all hall hperm hrow' => exact hrow (by simp [hall]) hperm hrow'
  | @choice _ x _ hchoice hx hword =>
      by_cases heq : x = m
      · subst heq
        split
        · exact (ho d hword).optional
        · exact ho d hword
      · -- another alternative was taken
        have hmany : c.isAlternative g = true := by
          simp only [isAlternative, hchoice, decide_true, Bool.true_and, decide_eq_true_eq]
          by_contra hone
          obtain ⟨y, hy⟩ := List.length_eq_one_iff.1
            (Nat.le_antisymm (Nat.not_lt.1 hone) (List.length_pos_of_mem hm))
          rw [hy, List.mem_singleton] at hx hm
          exact heq (hx.trans hm.symm)
        rw [if_pos hmany, hword.occurrences_eq_zero (hothers x hx heq)]
        exact ⟨Nat.le_refl 0, fun _ _ _ => Nat.zero_le _⟩

/-- How often a particle occurs in a group, from how often it does in the member that covers it. -/
theorem Derives.around (hc : c.Forest) (hm : m ∈ (c.group g).members) (hp : c.Covers m p)
    (ho : ∀ e, c.Derives c.occurs m e → o.AdmitsSaturated (occurrences p e))
    (h : c.Derives c.occurs (.group g) d) :
    (c.around g o).AdmitsSaturated (occurrences p d) := by
  have honce : ∀ e, c.DerivesOnce c.occurs (.group g) e → _ :=
    fun e he => DerivesOnce.admitsSaturated hc hm hp ho he
  cases h with
  | @intro _ n _ hadmits htimes =>
      refine .multiply hadmits (htimes.mul_le_occurrences fun e he => (honce e he).1)
        (fun k hk hlt => htimes.occurrences_le_mul fun e he => (honce e he).2 k hk hlt) ?_
      rintro rfl
      cases htimes
      rfl

/-- A leaf occurs in a group as often as its bounds folded with those of the groups around admit. -/
theorem Lineage.admitsSaturated (hc : c.Forest) {gs : List GroupId} (h : c.Lineage g gs p)
    (hp : p.isGroup = false) (hd : c.Derives c.occurs (.group g) d) :
    (gs.foldr c.around (c.occurs p)).AdmitsSaturated (occurrences p d) := by
  induction h generalizing d with
  | owner hm => exact hd.around hc hm (covers_self _) fun e he => (he.admits_leaf hp).saturated
  | nested hsub h ih => exact hd.around hc hsub h.contains fun e he => ih hp he

end Components

namespace Schema

open Components

variable {s : Schema} {g : GroupId} {p : Member} {w : List QName}

/-- The effective bounds of a leaf are bounds on how often it occurs: in every derivation of every
word of a group that belongs to no other, if the word is shorter than the largest word can count. -/
theorem Built.effectiveOccurs_admits (hs : s.Built) (htop : (s.group g).parent = none)
    (hp : s.Contains g p) (hleaf : p.isGroup = false) (hw : w.length < UInt32.size) :
    (s.Words s.occurs (.group g) w ↔ ∃ d, d.map Prod.fst = w ∧ s.Derives s.occurs (.group g) d) ∧
      ∀ d, d.map Prod.fst = w → s.Derives s.occurs (.group g) d →
        (s.effectiveOccurs p).Admits (occurrences p d) := by
  refine ⟨words_iff_derives, ?_⟩
  rintro d rfl hd
  obtain ⟨gs, hgs⟩ := Lineage.of_contains hp (by rintro rfl; cases hleaf)
  rw [hs.effectiveOccurs_eq hgs htop]
  have hlength : occurrences p d < UInt32.size :=
    (occurrences_le p d).trans_lt (by rwa [List.length_map] at hw)
  exact (hgs.admitsSaturated hs.forest hleaf hd).admits hlength

end Schema

/-- As many names as the bounds of a leaf admit, all of which it matches. -/
theorem Components.Derives.leaf {c : Components} {b : Member → Occurs} {m : Member} {w : List QName}
    (hadmits : (b m).Admits w.length) (hall : ∀ n ∈ w, c.passes m n = true) :
    c.Derives b m (w.map fun n => (n, m)) := by
  refine .intro hadmits ?_
  clear hadmits
  induction w with
  | nil => exact .zero
  | cons n w ih =>
      exact .succ (.leaf (hall n List.mem_cons_self))
        (ih fun x hx => hall x (List.mem_cons_of_mem _ hx))

/-- Up to 65536 times: up to three times two of an `a` or a `b`, then up to 65536 of a `c`. -/
def frequencySample : Components :=
  ((Components.withElements .v10
    [("a", ⟨2, some 2⟩), ("b", .once), ("c", ⟨0, some 65536⟩)]).withGroup .choice ⟨1, some 3⟩
    [.element ⟨0⟩, .element ⟨1⟩]).withGroup .sequence ⟨1, some 65536⟩ [.group ⟨0⟩, .element ⟨2⟩]

/-- Two of an `a`, then a `b`, then a `c`, of which there may be as many as words can count. -/
theorem effectiveOccurs_admits_sample : frequencySample.schema.Built ∧
    frequencySample.schema.effectiveOccurs (.element ⟨0⟩) = ⟨0, some 393216⟩ ∧
    frequencySample.schema.effectiveOccurs (.element ⟨2⟩) = ⟨0, some 4294967295⟩ ∧
    ∃ d : List (QName × Member), d.map Prod.fst = ["a", "a", "b", "c"].map QName.plain ∧
      frequencySample.schema.Derives frequencySample.schema.occurs (.group ⟨1⟩) d ∧
      Components.occurrences (.element ⟨0⟩) d = 2 ∧
      ∀ i < 3, (frequencySample.schema.effectiveOccurs (.element ⟨i⟩)).Admits
        (Components.occurrences (.element ⟨i⟩) d) := by
  have hs : frequencySample.schema.Built :=
    (((Components.assembled_withElements ..).withGroup ..).withGroup ..).built rfl
  have hmembers : (∀ i < 2, .element ⟨i⟩ ∈ (frequencySample.schema.group ⟨0⟩).members) ∧
      .group ⟨0⟩ ∈ (frequencySample.schema.group ⟨1⟩).members ∧
      .element ⟨2⟩ ∈ (frequencySample.schema.group ⟨1⟩).members := by
    decide +kernel
  have hin : ∀ i < 3, frequencySample.schema.Contains ⟨1⟩ (.element ⟨i⟩) := by
    intro i hi
    by_cases h : i = 2
    · exact h ▸ .member .root hmembers.2.2
    · exact .member (.member .root hmembers.2.1) (hmembers.1 i (by omega))
  have ha : frequencySample.schema.Derives frequencySample.schema.occurs (.element ⟨0⟩)
      [(.plain "a", .element ⟨0⟩), (.plain "a", .element ⟨0⟩)] :=
    .leaf (w := [.plain "a", .plain "a"]) (by decide +kernel) (by decide +kernel)
  have hb : frequencySample.schema.Derives frequencySample.schema.occurs (.element ⟨1⟩)
      [(.plain "b", .element ⟨1⟩)] :=
    .leaf (w := [.plain "b"]) (by decide +kernel) (by decide +kernel)
  have hc : frequencySample.schema.Derives frequencySample.schema.occurs (.element ⟨2⟩)
      [(.plain "c", .element ⟨2⟩)] :=
    .leaf (w := [.plain "c"]) (by decide +kernel) (by decide +kernel)
  have hchoice : frequencySample.schema.Derives frequencySample.schema.occurs (.group ⟨0⟩)
      [(.plain "a", .element ⟨0⟩), (.plain "a", .element ⟨0⟩), (.plain "b", .element ⟨1⟩)] :=
    .intro (n := 2) (by decide +kernel)
      (.succ (.choice rfl (hmembers.1 0 (by decide)) ha)
        (.succ (.choice rfl (hmembers.1 1 (by decide)) hb) .zero))
  have honce : frequencySample.schema.DerivesOnce frequencySample.schema.occurs (.group ⟨1⟩)
      [(.plain "a", .element ⟨0⟩), (.plain "a", .element ⟨0⟩), (.plain "b", .element ⟨1⟩),
        (.plain "c", .element ⟨2⟩)] := .sequence rfl (.cons hchoice (.cons hc .nil))
  have hd := Components.Derives.intro (b := frequencySample.schema.occurs) (n := 1)
    (by decide +kernel) (.succ honce .zero)
  refine ⟨hs, by decide +kernel, by decide +kernel, _, rfl, hd, rfl, fun i hi => ?_⟩
  exact (hs.effectiveOccurs_admits rfl (hin i hi) rfl (by decide)).2 _ rfl hd

end Conform
