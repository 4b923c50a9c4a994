import Conform.Proofs.Model.Bulk
import Conform.Proofs.Occurs.Algebra
import Conform.Proofs.Schema.Sample
/-!
# How many children a content has

The facts about a group bound how many children its content has. The bounds leave out members
without children, and where they are not worked out from a single member they count one child for
each. So they hold where no alternative without children makes a choice shorter, and where only one
member of a sequence or of an `all` group has children at all.
-/

namespace Conform

namespace GroupFacts

theorem least_le {n : UInt32} {ns : List UInt32} (h : n ∈ ns) : least ns ≤ n := by
  obtain ⟨m, hm⟩ := Option.isSome_iff_exists.1 (List.isSome_min?_of_mem h)
  rw [least, hm]
  exact (List.min?_eq_some_iff.1 hm).2 n h

theorem le_greatest {n : UInt32} {ns : List UInt32} (h : n ∈ ns) : n ≤ greatest ns := by
  obtain ⟨m, hm⟩ := Option.isSome_iff_exists.1 (List.isSome_max?_of_mem h)
  rw [greatest, hm]
  exact (List.max?_eq_some_iff.1 hm).2 n h

theorem greatest_mem {ns : List UInt32} (h : ns ≠ []) : greatest ns ∈ ns := by
  cases hm : ns.max? with
  | none => exact absurd (List.max?_eq_none_iff.1 hm) h
  | some m =>
      rw [greatest, hm]
      exact List.max?_mem hm

theorem widest_eq_some {r n : UInt32} {items : List Occurs} (h : widest r items = some n) :
    (∀ o ∈ items, ∃ k, o.max = some k) ∧ n = satMul r (greatest (items.filterMap (·.max))) := by
  unfold widest at h
  split at h
  · cases h
  · rename_i hbounded
    refine ⟨fun o ho => Option.isSome_iff_exists.1 ?_, (Option.some.inj h).symm⟩
    by_contra hnone
    exact hbounded (List.any_eq_true.2 ⟨o, ho, by simpa using hnone⟩)

theorem widest_ne_zero {r : UInt32} {items : List Occurs} (hr : r ≠ 0) (hnil : items ≠ [])
    (hitems : ∀ o ∈ items, o.max ≠ some 0) : widest r items ≠ some 0 := by
  intro h
  obtain ⟨hbounded, hzero⟩ := widest_eq_some h
  obtain ⟨o, ho⟩ := List.exists_mem_of_ne_nil _ hnil
  obtain ⟨n, hn⟩ := hbounded o ho
  have hmem : n ∈ items.filterMap (·.max) := List.mem_filterMap.2 ⟨o, ho, hn⟩
  refine satMul_ne_zero hr (fun hgreatest => ?_) hzero.symm
  obtain ⟨o', ho', hmax⟩ := List.mem_filterMap.1 (greatest_mem (List.ne_nil_of_mem hmem))
  exact hitems o' ho' (hmax.trans (congrArg some hgreatest))

theorem widest_singleton {r n : UInt32} {one : Occurs} (h : widest r [one] = some n) :
    ∃ k, one.max = some k ∧ n = satMul r k := by
  obtain ⟨hbounded, hn⟩ := widest_eq_some h
  obtain ⟨k, hk⟩ := hbounded one (List.mem_singleton_self _)
  refine ⟨k, hk, ?_⟩
  simpa [hk, greatest] using hn

/-- Members that may have children, in a group that may occur, do not have none together. -/
theorem upperSize_ne_zero {compositor : Compositor} {occurs : Occurs} {items : List Occurs}
    (hoccurs : occurs.max ≠ some 0) (hnil : items ≠ []) (hitems : ∀ o ∈ items, o.max ≠ some 0) :
    upperSize compositor occurs items ≠ some 0 := by
  unfold upperSize
  split
  · nofun
  · rename_i r hr
    have hr0 : r ≠ 0 := fun hzero => hoccurs (hr.trans (congrArg some hzero))
    dsimp only
    split
    · exact widest_ne_zero hr0 hnil hitems
    · exact widest_ne_zero hr0 hnil hitems
    · rename_i one hchoice hone
      have hmem : one ∈ items := List.mem_of_mem_filter (p := fun o => 0 < o.min) (by
        rw [hone]
        exact List.mem_singleton_self _)
      cases hmax : one.max with
      | none => nofun
      | some n =>
          intro h
          refine satMul_ne_zero hr0 (fun hzero => ?_) (Option.some.inj h)
          exact hitems one hmem (hmax.trans (congrArg some hzero))
    · exact fun h => hr0 (Option.some.inj h)
    · intro h
      obtain ⟨o, ho, hmax⟩ := List.mem_filterMap.1 (List.min?_mem h)
      exact hitems o (List.mem_of_mem_filter ho) hmax

/-- The greatest size of a single member is repeated as often as the group. -/
theorem upperSize_singleton {compositor : Compositor} {occurs one : Occurs} {n : UInt32}
    (h : upperSize compositor occurs [one] = some n) :
    ∃ r k, occurs.max = some r ∧ one.max = some k ∧ n = satMul r k := by
  unfold upperSize at h
  split at h
  · cases h
  · rename_i r hr
    refine ⟨r, ?_⟩
    dsimp only at h
    by_cases hmin : 0 < one.min
    · have hrequired : [one].filter (fun o => 0 < o.min) = [one] := by simp [hmin]
      rw [hrequired] at h
      split at h
      · obtain ⟨k, hk, hn⟩ := widest_singleton h
        exact ⟨k, hr, hk, hn⟩
      · rename_i hnil
        cases hnil
      · rename_i one' _ hone
        obtain rfl := List.singleton_inj.1 hone
        obtain ⟨k, hk, hn⟩ := Option.map_eq_some_iff.1 h
        exact ⟨k, hr, hk, hn.symm⟩
      · rename_i hlist
        exact absurd rfl (hlist one)
      · rename_i hlist
        exact absurd rfl (hlist one)
    · have hrequired : [one].filter (fun o => 0 < o.min) = [] := by simp [hmin]
      rw [hrequired] at h
      obtain ⟨k, hk, hn⟩ : ∃ k, one.max = some k ∧ n = satMul r k := by
        split at h <;> first | exact widest_singleton h | contradiction
      exact ⟨k, hr, hk, hn⟩

end GroupFacts

namespace Components

variable {c : Components} {b : Member → Occurs} {g : GroupId} {m : Member} {ms : List Member}
  {w : List QName}

/-! ## How long words are -/

theorem Row.sum_le {least : Member → Nat} (h : c.Row b ms w)
    (hleast : ∀ m ∈ ms, ∀ u, c.Words b m u → least m ≤ u.length) :
    (ms.map least).sum ≤ w.length := by
  induction ms generalizing w with
  | nil => exact Nat.zero_le _
  | cons m ms ih =>
      obtain ⟨u, v, rfl, hu, hv⟩ := row_cons_iff.1 h
      have hfirst := hleast m List.mem_cons_self u hu
      have hrest := ih hv fun x hx => hleast x (List.mem_cons_of_mem _ hx)
      rw [List.map_cons, List.sum_cons, List.length_append]
      omega

theorem Row.le_sum {most : Member → Nat} (h : c.Row b ms w)
    (hmost : ∀ m ∈ ms, ∀ u, c.Words b m u → u.length ≤ most m) :
    w.length ≤ (ms.map most).sum := by
  induction ms generalizing w with
  | nil =>
      rw [row_nil_iff.1 h]
      exact Nat.zero_le _
  | cons m ms ih =>
      obtain ⟨u, v, rfl, hu, hv⟩ := row_cons_iff.1 h
      have hfirst := hmost m List.mem_cons_self u hu
      have hrest := ih hv fun x hx => hmost x (List.mem_cons_of_mem _ hx)
      rw [List.map_cons, List.sum_cons, List.length_append]
      omega

theorem Times.mul_le {least n : Nat} (h : c.Times b m n w)
    (hleast : ∀ u, c.Once b m u → least ≤ u.length) : n * least ≤ w.length := by
  induction n generalizing w with
  | zero => simp
  | succ n ih =>
      cases h with
      | succ honce hrest =>
          have hfirst := hleast _ honce
          have hmore := ih hrest
          rw [Nat.succ_mul, List.length_append]
          omega

theorem Times.le_mul {most n : Nat} (h : c.Times b m n w)
    (hmost : ∀ u, c.Once b m u → u.length ≤ most) : w.length ≤ n * most := by
  induction n generalizing w with
  | zero =>
      rw [h.eq_nil]
      exact Nat.zero_le _
  | succ n ih =>
      cases h with
      | succ honce hrest =>
          have hfirst := hmost _ honce
          have hmore := ih hrest
          rw [Nat.succ_mul, List.length_append]
          omega

/-- An occurrence of a sequence or of an `all` group is a row of its members in some order. -/
theorem Once.exists_row (h : c.Once b (.group g) w) (hchoice : (c.group g).compositor ≠ .choice) :
    ∃ ms, ms.Perm (c.group g).members ∧ c.Row b ms w := by
  cases h with
  | leaf hn => cases hn
  | choice hc => exact absurd hc hchoice
  | sequence _ hrow => exact ⟨_, List.Perm.refl _, hrow⟩
  | all _ hperm hrow => exact ⟨_, hperm, hrow⟩

theorem Once.sum_le {least : Member → Nat} (h : c.Once b (.group g) w)
    (hchoice : (c.group g).compositor ≠ .choice)
    (hleast : ∀ m ∈ (c.group g).members, ∀ u, c.Words b m u → least m ≤ u.length) :
    ((c.group g).members.map least).sum ≤ w.length := by
  obtain ⟨ms, hperm, hrow⟩ := h.exists_row hchoice
  rw [← (hperm.map least).sum_eq]
  exact hrow.sum_le fun m hm => hleast m (hperm.subset hm)

theorem Once.le_sum {most : Member → Nat} (h : c.Once b (.group g) w)
    (hchoice : (c.group g).compositor ≠ .choice)
    (hmost : ∀ m ∈ (c.group g).members, ∀ u, c.Words b m u → u.length ≤ most m) :
    w.length ≤ ((c.group g).members.map most).sum := by
  obtain ⟨ms, hperm, hrow⟩ := h.exists_row hchoice
  rw [← (hperm.map most).sum_eq]
  exact hrow.le_sum fun m hm => hmost m (hperm.subset hm)

end Components

namespace Schema

open Components

/-- How many children a member has, as the facts say it of a group. -/
def sizeIn (s : Schema) : Member → Occurs
  | .group g => (s.factsOf g).size
  | m => s.occurs m

/-- The sizes of the members of a group that may have children. -/
def partSizes (s : Schema) (g : GroupId) : List Occurs :=
  ((s.group g).members.map s.sizeIn).filter fun o => o.max ≠ some 0

variable {s : Schema} {root g : GroupId} {m : Member} {w : List QName}

theorem sizeIn_leaf (hm : m.isGroup = false) : s.sizeIn m = s.occurs m := by
  cases m with
  | group g => cases hm
  | element e => rfl
  | wildcard w => rfl

theorem mem_partSizes {o : Occurs} : o ∈ s.partSizes g ↔
    ∃ m ∈ (s.group g).members, s.sizeIn m = o ∧ o.max ≠ some 0 := by
  simp only [partSizes, List.mem_filter, List.mem_map, decide_eq_true_eq]
  constructor
  · rintro ⟨⟨m, hm, hsize⟩, hmax⟩
    exact ⟨m, hm, hsize, hmax⟩
  · rintro ⟨m, hm, hsize, hmax⟩
    exact ⟨⟨m, hm, hsize⟩, hmax⟩

namespace Built

theorem sizeIn_group (hs : s.Built) (g : GroupId) : s.sizeIn (.group g) =
    if (s.partSizes g).isEmpty then Occurs.never
    else ⟨if (s.group g).occurs.min = 0 then 0 else
        GroupFacts.lowerSize (s.group g).compositor (s.group g).occurs (s.partSizes g),
      if (s.group g).occurs.max = some 0 then some 0 else
        GroupFacts.upperSize (s.group g).compositor (s.group g).occurs (s.partSizes g)⟩ := by
  have hsizes : (s.factsOf g).size =
      GroupFacts.sizeOf (s.group g) ((s.group g).members.map s.sizeIn) := by
    rw [hs.factsOf_eq]
    simp only [GroupFacts.ofGroup]
    refine congrArg (GroupFacts.sizeOf (s.group g)) (List.map_congr_left fun m _ => ?_)
    cases m <;> rfl
  have hnil : (s.group g).members = [] → (s.partSizes g).isEmpty = true := by
    intro hnil
    simp [partSizes, hnil]
  rw [sizeIn, hsizes, GroupFacts.sizeOf]
  change (if (s.group g).members.isEmpty || (s.partSizes g).isEmpty then _ else _) = _
  by_cases hempty : (s.partSizes g).isEmpty = true
  · rw [if_pos hempty, if_pos (by simp [hempty])]
  · rw [if_neg hempty, if_neg]
    · rfl
    · rw [Bool.or_eq_true, List.isEmpty_iff]
      exact fun h => hempty (h.elim hnil id)

/-- An occurrence of a group has no children if none of the members has. -/
theorem eq_nil_of_once (hmembers : ∀ m ∈ (s.group g).members, ∀ u, s.Words s.occurs m u → u = [])
    (h : s.Once s.occurs (.group g) w) : w = [] := by
  by_cases hchoice : (s.group g).compositor = .choice
  · obtain ⟨m, hm, hword⟩ := h.of_choice hchoice
    exact hmembers m hm w hword
  · have hle : w.length ≤ ((s.group g).members.map fun _ => 0).sum :=
      h.le_sum hchoice fun m hm u hu => by
        rw [hmembers m hm u hu]
        exact Nat.le_refl 0
    exact List.eq_nil_of_length_eq_zero (by simpa using hle)

/-- What has no children by its size has none. -/
theorem eq_nil_of_sizeIn (hs : s.Built) : ∀ m, (s.sizeIn m).max = some 0 →
    ∀ w, s.Words s.occurs m w → w = [] := by
  refine hs.forest.induction ?_ ?_
  · intro m hm hmax w hword
    rw [sizeIn_leaf hm] at hmax
    cases hword with
    | intro hadmits htimes =>
        obtain rfl := Nat.le_zero.1 (hadmits.2 0 hmax)
        exact htimes.eq_nil
  · intro g ih hmax w hword
    cases hword with
    | @intro _ n _ hadmits htimes =>
        rw [hs.sizeIn_group] at hmax
        split at hmax
        · -- no member has children
          rename_i hempty
          have hmembers : ∀ m ∈ (s.group g).members, (s.sizeIn m).max = some 0 := by
            intro m hm
            by_contra hne
            have hin := mem_partSizes.2 ⟨m, hm, rfl, hne⟩
            rw [List.isEmpty_iff.1 hempty] at hin
            cases hin
          have hle : w.length ≤ n * 0 := htimes.le_mul fun u hu => by
            rw [eq_nil_of_once (fun m hm => ih m hm (hmembers m hm)) hu]
            exact Nat.le_refl 0
          exact List.eq_nil_of_length_eq_zero (Nat.le_zero.1 hle)
        · rename_i hnonempty
          dsimp only at hmax
          split at hmax
          · rename_i hoccurs
            obtain rfl := Nat.le_zero.1 (hadmits.2 0 hoccurs)
            exact htimes.eq_nil
          · rename_i hoccurs
            refine absurd hmax (GroupFacts.upperSize_ne_zero hoccurs ?_ ?_)
            · exact fun hnil => hnonempty (List.isEmpty_iff.2 hnil)
            · intro o ho
              obtain ⟨-, -, -, hne⟩ := mem_partSizes.1 ho
              exact hne

end Built

/-! ## The bounds -/

/-- No choice with a least size has an empty alternative that the size leaves out. -/
def CountsEmpty (s : Schema) (root : GroupId) : Prop :=
  ∀ g, s.Contains root (.group g) → (s.group g).compositor = .choice →
    (s.sizeIn (.group g)).min ≠ 0 → ∀ m ∈ (s.group g).members, (s.sizeIn m).max = some 0 →
      ¬s.Words s.occurs m []

/-- No sequence or `all` group with a greatest size has two members with children. -/
def CountsAll (s : Schema) (root : GroupId) : Prop :=
  ∀ g, s.Contains root (.group g) → (s.group g).compositor ≠ .choice →
    (s.sizeIn (.group g)).max ≠ none → (s.partSizes g).length ≤ 1

/-- The least sizes of some members of a group are among those of all. -/
theorem sum_partSizes_le (p : Occurs → Bool) :
    (((s.partSizes g).filter p).map fun o => o.min.toNat).sum ≤
      ((s.group g).members.map fun m => (s.sizeIn m).min.toNat).sum := by
  have hsub : ((s.partSizes g).filter p).Sublist ((s.group g).members.map s.sizeIn) :=
    List.filter_sublist.trans List.filter_sublist
  have hle := (hsub.map fun o => o.min.toNat).sum_le_sum fun _ _ => Nat.zero_le _
  rwa [List.map_map] at hle

/-- One occurrence of a choice has as many children as its least alternative. -/
theorem least_le_length (hmembers : ∀ m ∈ (s.group g).members, ∀ u, s.Words s.occurs m u →
      (s.sizeIn m).min.toNat ≤ u.length)
    (hempty : ∀ m ∈ (s.group g).members, (s.sizeIn m).max = some 0 → ∀ u, ¬s.Words s.occurs m u)
    (hchoice : (s.group g).compositor = .choice) (hw : s.Once s.occurs (.group g) w) :
    (GroupFacts.least ((s.partSizes g).map (·.min))).toNat ≤ w.length := by
  obtain ⟨m, hm, hword⟩ := hw.of_choice hchoice
  refine Nat.le_trans ?_ (hmembers m hm w hword)
  have hin : s.sizeIn m ∈ s.partSizes g :=
    mem_partSizes.2 ⟨m, hm, rfl, fun hmax => hempty m hm hmax w hword⟩
  exact UInt32.le_iff_toNat_le.1 (GroupFacts.least_le (List.mem_map_of_mem hin))

/-- One occurrence of another group has as many children as any of its members. -/
theorem min_le_length_of_mem (hmembers : ∀ m ∈ (s.group g).members, ∀ u, s.Words s.occurs m u →
      (s.sizeIn m).min.toNat ≤ u.length)
    (hchoice : (s.group g).compositor ≠ .choice) (hw : s.Once s.occurs (.group g) w) {o : Occurs}
    (ho : o ∈ s.partSizes g) : o.min.toNat ≤ w.length := by
  have hle := sum_partSizes_le (s := s) (g := g) fun _ => true
  rw [List.filter_true] at hle
  have hone := List.single_le_sum (l := (s.partSizes g).map fun o => o.min.toNat)
    (fun _ _ => Nat.zero_le _) _ (List.mem_map_of_mem ho)
  exact hone.trans (hle.trans (hw.sum_le hchoice hmembers))

/-- What one occurrence of a group has at least, repeated as often as the group must occur, is its
least size. -/
theorem exists_least (hmembers : ∀ m ∈ (s.group g).members, ∀ u, s.Words s.occurs m u →
      (s.sizeIn m).min.toNat ≤ u.length)
    (hempty : (s.group g).compositor = .choice → ∀ m ∈ (s.group g).members,
      (s.sizeIn m).max = some 0 → ∀ u, ¬s.Words s.occurs m u)
    (hmin : (s.group g).occurs.min ≠ 0) :
    ∃ k, (∀ u, s.Once s.occurs (.group g) u → k ≤ u.length) ∧
      (GroupFacts.lowerSize (s.group g).compositor (s.group g).occurs (s.partSizes g)).toNat ≤
        (s.group g).occurs.min.toNat * k := by
  have hsaturated : ∀ k, (satMul (s.group g).occurs.min k).toNat ≤
      (s.group g).occurs.min.toNat * k.toNat := fun k => (toNat_satMul ..).trans_le (Nat.min_le_left ..)
  unfold GroupFacts.lowerSize
  split
  · rename_i hchoice
    exact ⟨_, fun u hu => least_le_length hmembers (hempty hchoice) hchoice hu, hsaturated _⟩
  · rename_i hall
    have hpos : 0 < (s.group g).occurs.min.toNat :=
      Nat.pos_of_ne_zero fun h => hmin (UInt32.toNat_inj.1 h)
    refine ⟨(GroupFacts.greatest ((s.partSizes g).map (·.min))).toNat, fun u hu => ?_, ?_⟩
    · by_cases hnil : s.partSizes g = []
      · simp [hnil, GroupFacts.greatest]
      · have hmem : GroupFacts.greatest ((s.partSizes g).map (·.min)) ∈
            (s.partSizes g).map (·.min) := GroupFacts.greatest_mem (by simpa using hnil)
        obtain ⟨o, ho, hgreatest⟩ := List.mem_map.1 hmem
        rw [← hgreatest]
        exact min_le_length_of_mem hmembers (by simp [hall]) hu ho
    · exact Nat.le_mul_of_pos_left _ hpos
  · rename_i hsequence
    have hone : ∀ o ∈ (s.partSizes g).filter fun o => 0 < o.min,
        ∀ u, s.Once s.occurs (.group g) u → o.min.toNat ≤ u.length := fun o ho u hu =>
      min_le_length_of_mem hmembers (by simp [hsequence]) hu (List.mem_of_mem_filter ho)
    split
    · exact ⟨0, fun _ _ => Nat.zero_le _, Nat.zero_le _⟩
    · rename_i one hlist
      exact ⟨_, hone one (by rw [hlist]; exact List.mem_singleton_self _), hsaturated _⟩
    · rename_i hnil _
      obtain ⟨o, ho⟩ := List.exists_mem_of_ne_nil _ hnil
      have hpos : 0 < o.min.toNat := by
        have h := (List.mem_filter.1 ho).2
        rwa [decide_eq_true_eq, UInt32.lt_iff_toNat_lt] at h
      exact ⟨1, fun u hu => hpos.trans_le (hone o ho u hu), (Nat.mul_one _).ge⟩

theorem Built.min_le_length (hs : s.Built) (hcounts : s.CountsEmpty root) :
    ∀ m, s.Contains root m → ∀ w, s.Words s.occurs m w → (s.sizeIn m).min.toNat ≤ w.length := by
  refine hs.forest.induction ?_ ?_
  · intro m hm _ w hword
    rw [sizeIn_leaf hm]
    cases hword with
    | intro hadmits htimes =>
        rw [((times_leaf_iff hm).1 htimes).1]
        exact hadmits.1
  · intro g ih hin w hword
    by_cases hzero : (s.sizeIn (.group g)).min = 0
    · rw [hzero]
      exact Nat.zero_le _
    have hcount := hcounts g hin
    rw [hs.sizeIn_group] at hzero hcount ⊢
    split at hzero
    · exact absurd rfl hzero
    rename_i hnonempty
    rw [if_neg hnonempty] at hcount ⊢
    dsimp only at hzero hcount ⊢
    split at hzero
    · exact absurd rfl hzero
    rename_i hmin
    rw [if_neg hmin] at hcount ⊢
    cases hword with
    | intro hadmits htimes =>
        obtain ⟨k, honce, hlower⟩ := exists_least (fun m hm => ih m hm (hin.member hm))
          (fun hchoice m hm hmax u hu => hcount hchoice hzero m hm hmax
            (hs.eq_nil_of_sizeIn m hmax u hu ▸ hu)) hmin
        exact hlower.trans ((Nat.mul_le_mul_right k hadmits.1).trans (htimes.mul_le honce))

/-- If only one member of a sequence or of an `all` group has children, an occurrence has as many. -/
theorem length_le_of_single {k : Nat} {u : List QName} (hu : s.Once s.occurs (.group g) u)
    (hchoice : (s.group g).compositor ≠ .choice) (hsingle : (s.partSizes g).length ≤ 1)
    (hmembers : ∀ m ∈ (s.group g).members, ∀ u, s.Words s.occurs m u →
      u.length ≤ if (s.sizeIn m).max = some 0 then 0 else k) : u.length ≤ k := by
  have hsum : ∀ ms : List Member,
      (ms.map fun m => if (s.sizeIn m).max = some 0 then 0 else k).sum =
        ((ms.map s.sizeIn).filter fun o => o.max ≠ some 0).length * k := by
    intro ms
    induction ms with
    | nil => simp
    | cons m ms ih =>
        rw [List.map_cons, List.sum_cons, ih, List.map_cons, List.filter_cons]
        by_cases hm : (s.sizeIn m).max = some 0
        · simp [hm]
        · rw [if_neg hm, if_pos (decide_eq_true hm), List.length_cons, Nat.succ_mul, Nat.add_comm]
  refine (hu.le_sum hchoice hmembers).trans ?_
  rw [hsum]
  exact (Nat.mul_le_mul_right k hsingle).trans_eq (Nat.one_mul k)

/-- The greatest size of a group is what one occurrence of it has at most, repeated as often as the
group may occur. -/
theorem Built.exists_most (hs : s.Built) (hsingle : (s.group g).compositor ≠ .choice →
      (s.partSizes g).length ≤ 1)
    (hmembers : ∀ m ∈ (s.group g).members, ∀ u, s.Words s.occurs m u → ∀ n,
      (s.sizeIn m).max = some n → n.toNat < UInt32.size - 1 → u.length ≤ n.toNat)
    {n : UInt32} (hmax : (s.sizeIn (.group g)).max = some n) (hn : n ≠ 0) :
    ∃ r k, (s.group g).occurs.max = some r ∧ n = satMul r k ∧ (k.toNat < UInt32.size - 1 →
      ∀ u, s.Once s.occurs (.group g) u → u.length ≤ k.toNat) := by
  rw [hs.sizeIn_group] at hmax
  split at hmax
  · exact absurd (Option.some.inj hmax).symm hn
  rename_i hnonempty
  dsimp only at hmax
  split at hmax
  · exact absurd (Option.some.inj hmax).symm hn
  by_cases hchoice : (s.group g).compositor = .choice
  · rw [hchoice, GroupFacts.upperSize] at hmax
    split at hmax
    · cases hmax
    rename_i r hr
    obtain ⟨hbounded, hn⟩ := GroupFacts.widest_eq_some hmax
    refine ⟨r, _, hr, hn, fun hk u hu => ?_⟩
    obtain ⟨m, hm, hword⟩ := hu.of_choice hchoice
    by_cases hzero : (s.sizeIn m).max = some 0
    · rw [hs.eq_nil_of_sizeIn m hzero u hword]
      exact Nat.zero_le _
    · have hin := mem_partSizes.2 ⟨m, hm, rfl, hzero⟩
      obtain ⟨k, hk'⟩ := hbounded _ hin
      have hle := UInt32.le_iff_toNat_le.1
        (GroupFacts.le_greatest (List.mem_filterMap.2 ⟨_, hin, hk'⟩))
      exact (hmembers m hm u hword k hk' (Nat.lt_of_le_of_lt hle hk)).trans hle
  · obtain ⟨one, hone⟩ : ∃ one, s.partSizes g = [one] := by
      refine List.length_eq_one_iff.1 (Nat.le_antisymm (hsingle hchoice) ?_)
      exact List.length_pos_of_ne_nil fun hnil => hnonempty (List.isEmpty_iff.2 hnil)
    rw [hone] at hmax
    obtain ⟨r, k, hr, hk, hn⟩ := GroupFacts.upperSize_singleton hmax
    refine ⟨r, k, hr, hn, fun hlt u hu => ?_⟩
    refine length_le_of_single hu hchoice (hsingle hchoice) fun m hm v hv => ?_
    split
    · rename_i hzero
      rw [hs.eq_nil_of_sizeIn m hzero v hv]
      exact Nat.le_refl 0
    · rename_i hne
      have hin := mem_partSizes.2 ⟨m, hm, rfl, hne⟩
      rw [hone, List.mem_singleton] at hin
      exact hmembers m hm v hv k (hin ▸ hk) hlt

theorem Built.length_le_max (hs : s.Built) (hcounts : s.CountsAll root) :
    ∀ m, s.Contains root m → ∀ w, s.Words s.occurs m w → ∀ n, (s.sizeIn m).max = some n →
      n.toNat < UInt32.size - 1 → w.length ≤ n.toNat := by
  refine hs.forest.induction ?_ ?_
  · intro m hm _ w hword n hmax _
    rw [sizeIn_leaf hm] at hmax
    cases hword with
    | intro hadmits htimes =>
        rw [((times_leaf_iff hm).1 htimes).1]
        exact hadmits.2 n hmax
  · intro g ih hin w hword n hmax hlt
    by_cases hn : n = 0
    · subst hn
      rw [hs.eq_nil_of_sizeIn _ hmax w hword]
      exact Nat.zero_le _
    obtain ⟨r, k, hr, rfl, honce⟩ := hs.exists_most
      (fun hchoice => hcounts g hin hchoice (by rw [hmax]; nofun))
      (fun m hm => ih m hm (hin.member hm)) hmax hn
    rw [toNat_satMul] at hlt ⊢
    have hproduct : r.toNat * k.toNat < UInt32.size - 1 := by omega
    rw [Nat.min_eq_left (Nat.le_of_lt hproduct)]
    cases hword with
    | @intro _ i _ hadmits htimes =>
        have hi : i ≤ r.toNat := hadmits.2 r hr
        rcases Nat.eq_zero_or_pos r.toNat with hzero | hpos
        · obtain rfl : i = 0 := by omega
          rw [htimes.eq_nil]
          exact Nat.zero_le _
        · have hk : k.toNat < UInt32.size - 1 :=
            Nat.lt_of_le_of_lt (Nat.le_mul_of_pos_left _ hpos) hproduct
          exact (htimes.le_mul (honce hk)).trans (Nat.mul_le_mul_right _ hi)

/-- The size of a group bounds how many children its content has: from below if no choice leaves out
an empty alternative, and from above, unless it is the largest word, if no sequence or `all` group
has two members with children. -/
theorem Built.size_bounds (hs : s.Built) (root : GroupId) :
    (s.CountsEmpty root → ∀ w, s.Words s.occurs (.group root) w →
      (s.factsOf root).size.min.toNat ≤ w.length) ∧
    (s.CountsAll root → ∀ w, s.Words s.occurs (.group root) w → ∀ n,
      (s.factsOf root).size.max = some n → n.toNat < UInt32.size - 1 → w.length ≤ n.toNat) :=
  ⟨fun hcounts => hs.min_le_length hcounts _ .root, fun hcounts => hs.length_le_max hcounts _ .root⟩

end Schema

/-- Two or three times an `a` or from two to three times a `b`. -/
def sizesSample : Components :=
  ((Components.withElements .v10 [("a", .once), ("b", ⟨2, some 3⟩)]).withGroup .choice .once
    [.element ⟨0⟩, .element ⟨1⟩]).withGroup .sequence ⟨2, some 3⟩ [.group ⟨0⟩]

theorem size_bounds_sample : sizesSample.schema.Built ∧
    ∀ w, sizesSample.schema.Words sizesSample.schema.occurs (.group ⟨1⟩) w →
      2 ≤ w.length ∧ w.length ≤ 9 := by
  have hs : sizesSample.schema.Built :=
    (((Components.assembled_withElements ..).withGroup ..).withGroup ..).built rfl
  have hsize : (sizesSample.schema.factsOf ⟨1⟩).size = ⟨2, some 9⟩ := by decide +kernel
  have hempty : ∀ i < 2, ∀ m ∈ (sizesSample.schema.group ⟨i⟩).members,
      (sizesSample.schema.sizeIn m).max ≠ some 0 := by
    decide +kernel
  have hall : ∀ i < 2, (sizesSample.schema.group ⟨i⟩).compositor ≠ .choice →
      (sizesSample.schema.partSizes ⟨i⟩).length ≤ 1 := by
    decide +kernel
  obtain ⟨hleast, hmost⟩ := hs.size_bounds ⟨1⟩
  refine ⟨hs, fun w hw => ⟨?_, ?_⟩⟩
  · have h := hleast (fun g hg _ _ m hm hmax => absurd hmax
      (hempty g.index (Nat.lt_succ_of_le (hg.index_le hs.forest g rfl)) m hm)) w hw
    rwa [hsize] at h
  · exact hmost (fun g hg hchoice _ =>
      hall g.index (Nat.lt_succ_of_le (hg.index_le hs.forest g rfl)) hchoice) w hw 9
        (by rw [hsize]) (by decide)

/-- A sequence of an `a` and a `b`, and a choice of nothing or two of a `c`. -/
def missedSample : Components :=
  (((Components.withElements .v10 [("a", .once), ("b", .once), ("c", ⟨2, some 2⟩)]).withGroup
    .sequence .once [.element ⟨0⟩, .element ⟨1⟩]).withGroup .sequence .once []).withGroup .choice
    .once [.group ⟨1⟩, .element ⟨2⟩]

/-- The two children of the sequence are more than its greatest size, and to have no children is
less than the least size of the choice. -/
theorem sizes_miss : missedSample.schema.Built ∧
    (missedSample.schema.factsOf ⟨0⟩).size.max = some 1 ∧
    missedSample.schema.Words missedSample.schema.occurs (.group ⟨0⟩) [.plain "a", .plain "b"] ∧
    (missedSample.schema.factsOf ⟨2⟩).size.min = 2 ∧
    missedSample.schema.Words missedSample.schema.occurs (.group ⟨2⟩) [] := by
  have hs : missedSample.schema.Built := ((((Components.assembled_withElements ..).withGroup
    ..).withGroup ..).withGroup ..).built rfl
  refine ⟨hs, by decide +kernel, ?_, by decide +kernel, ?_⟩
  · have ha : missedSample.schema.Words missedSample.schema.occurs (.element ⟨0⟩) [.plain "a"] :=
      .intro (n := 1) (by decide +kernel) ((Components.times_leaf_iff rfl).2 ⟨rfl, by decide +kernel⟩)
    have hb : missedSample.schema.Words missedSample.schema.occurs (.element ⟨1⟩) [.plain "b"] :=
      .intro (n := 1) (by decide +kernel) ((Components.times_leaf_iff rfl).2 ⟨rfl, by decide +kernel⟩)
    exact .intro (n := 1) (by decide +kernel)
      (Components.Once.times (.sequence rfl (.cons ha (.singleton hb))))
  · have hnothing : missedSample.schema.Words missedSample.schema.occurs (.group ⟨1⟩) [] :=
      .intro (n := 1) (by decide +kernel) (Components.Once.times (.sequence rfl .nil))
    exact .intro (n := 1) (by decide +kernel)
      (Components.Once.times (.choice rfl (by decide +kernel) hnothing))

end Conform
