import Conform.Proofs.Model.Sizes
import Conform.Proofs.Occurs.Algebra
import Conform.Proofs.Schema.Ancestry
import Conform.Proofs.Schema.Sample
import Conform.Schema.Traversal
import Mathlib.Data.List.Fold
/-!
# Bounds within a root group

The bounds of a particle within a root group are worked out twice: by a search from the root down,
which multiplies from the root on, and by following the owners up. Products do not depend on the
order, so the minima agree. The maxima agree unless an unbounded factor comes before the first zero
on the way down: the search takes the product for unbounded then, although the particle can not
occur.
-/

namespace Conform

namespace Occurs

/-! ## Maxima on the way down -/

/-- The product of two maxima, of which only the first is looked at if there is none. -/
def mulMaxDown (m n : Option UInt32) : Option UInt32 :=
  match m, n with
  | some m, some n => some (satMul m n)
  | some m, none => if m = 0 then some 0 else none
  | none, _ => none

/-- There is an unbounded maximum before the first zero, and a zero. -/
def ZeroBehindUnbounded (ms : List (Option UInt32)) : Prop :=
  ∃ before after, ms = before ++ none :: after ∧ some 0 ∉ before ∧ some 0 ∈ after

theorem ZeroBehindUnbounded.mem_none {ms : List (Option UInt32)} (h : ZeroBehindUnbounded ms) :
    none ∈ ms := by
  obtain ⟨before, after, rfl, -⟩ := h
  exact List.mem_append_right _ List.mem_cons_self

theorem zeroBehindUnbounded_none {ms : List (Option UInt32)} :
    ZeroBehindUnbounded (none :: ms) ↔ some 0 ∈ ms := by
  constructor
  · rintro ⟨before, after, heq, -, hzero⟩
    cases before with
    | nil => exact (List.cons.inj heq).2 ▸ hzero
    | cons _ before =>
        rw [(List.cons.inj heq).2]
        exact List.mem_append_right _ (List.mem_cons_of_mem _ hzero)
  · exact fun h => ⟨[], ms, rfl, List.not_mem_nil, h⟩

theorem zeroBehindUnbounded_some {k : UInt32} {ms : List (Option UInt32)} :
    ZeroBehindUnbounded (some k :: ms) ↔ k ≠ 0 ∧ ZeroBehindUnbounded ms := by
  constructor
  · rintro ⟨before, after, heq, hnone, hzero⟩
    cases before with
    | nil => cases (List.cons.inj heq).1
    | cons x before =>
        obtain ⟨rfl, rfl⟩ := List.cons.inj heq
        rw [List.mem_cons, not_or] at hnone
        exact ⟨fun hk => hnone.1 (hk ▸ rfl), before, after, rfl, hnone.2, hzero⟩
  · rintro ⟨hk, before, after, rfl, hnone, hzero⟩
    refine ⟨some k :: before, after, rfl, ?_, hzero⟩
    rw [List.mem_cons, not_or]
    exact ⟨fun heq => hk (Option.some.inj heq).symm, hnone⟩

theorem foldl_mulMax_zero (ms : List (Option UInt32)) : ms.foldl mulMax (some 0) = some 0 := by
  induction ms with
  | nil => rfl
  | cons n ms ih => rw [List.foldl_cons, mulMax_zero_left, ih]

theorem foldl_mulMax_none (ms : List (Option UInt32)) :
    ms.foldl mulMax none = if some 0 ∈ ms then some 0 else none := by
  induction ms with
  | nil => rfl
  | cons n ms ih =>
      rw [List.foldl_cons]
      by_cases hn : n = some 0
      · rw [hn, mulMax_zero_right, foldl_mulMax_zero, if_pos List.mem_cons_self]
      · have hnone : mulMax none n = none := mulMax_eq_bind (m := none) nofun hn
        rw [hnone, ih]
        simp only [List.mem_cons, Ne.symm hn, false_or]

theorem foldl_mulMaxDown_none (ms : List (Option UInt32)) : ms.foldl mulMaxDown none = none := by
  induction ms with
  | nil => rfl
  | cons n ms ih => rw [List.foldl_cons, mulMaxDown, ih]

theorem mulMaxDown_some (k : UInt32) (n : Option UInt32) :
    mulMaxDown (some k) n = mulMax (some k) n := by
  cases n <;> rfl

/-- The products on the way down are right up to an unbounded maximum that hides a zero. -/
theorem foldl_mulMaxDown (m : Option UInt32) (ms : List (Option UInt32)) :
    (¬ ZeroBehindUnbounded (m :: ms) → ms.foldl mulMaxDown m = ms.foldl mulMax m) ∧
      (ZeroBehindUnbounded (m :: ms) →
        ms.foldl mulMaxDown m = none ∧ ms.foldl mulMax m = some 0) := by
  induction ms generalizing m with
  | nil =>
      refine ⟨fun _ => rfl, ?_⟩
      rintro ⟨before, after, heq, -, hzero⟩
      cases before with
      | nil => cases (List.cons.inj heq).2 ▸ hzero
      | cons _ before => cases before <;> cases (List.cons.inj heq).2
  | cons n ms ih =>
      cases m with
      | none =>
          rw [zeroBehindUnbounded_none, foldl_mulMaxDown_none, foldl_mulMax_none]
          exact ⟨fun h => (if_neg h).symm, fun h => ⟨rfl, if_pos h⟩⟩
      | some k =>
          -- the two first factors may be taken together, so the product so far stands for both
          have hstep : ZeroBehindUnbounded (some k :: n :: ms) ↔
              ZeroBehindUnbounded (mulMax (some k) n :: ms) := by
            rw [zeroBehindUnbounded_some]
            by_cases hk : k = 0
            · rw [hk, mulMax_zero_left, zeroBehindUnbounded_some]
              simp only [ne_eq, not_true_eq_false, false_and]
            · cases n with
              | none => simp only [mulMax, hk, if_false, ne_eq, not_false_eq_true, true_and]
              | some j =>
                  simp only [mulMax, zeroBehindUnbounded_some, ne_eq, satMul_eq_zero_iff, not_or,
                    and_assoc]
          rw [hstep, List.foldl_cons, List.foldl_cons, mulMaxDown_some]
          exact ih _

end Occurs

namespace Components

variable (c : Components) (gs : List GroupId) (o : Occurs)

theorem around_min (g : GroupId) :
    (c.around g o).min = if c.isAlternative g then 0 else satMul o.min (c.group g).occurs.min := by
  unfold around
  split
  · exact satMul_eq_zero_iff.2 (.inl rfl)
  · rfl

theorem around_max (g : GroupId) :
    (c.around g o).max = Occurs.mulMax o.max (c.group g).occurs.max := by
  unfold around
  split <;> rfl

/-- One choice with alternatives is enough for a particle to be left out. -/
theorem foldr_around_min : (gs.foldr c.around o).min =
    if gs.any c.isAlternative then 0
    else gs.foldl (fun n g => satMul n (c.group g).occurs.min) o.min := by
  have : RightCommutative fun (n : UInt32) g => satMul n (c.group g).occurs.min :=
    ⟨fun n g g' => satMul_right_comm n _ _⟩
  induction gs with
  | nil => rfl
  | cons g gs ih =>
      rw [List.foldr_cons, around_min, ih, List.any_cons,
        List.foldl_cons_eq_apply_foldl]
      cases c.isAlternative g <;> cases gs.any c.isAlternative <;>
        simp [satMul_eq_zero_iff]

theorem foldr_around_max : (gs.foldr c.around o).max =
    (gs.map fun g => (c.group g).occurs.max).foldl Occurs.mulMax o.max := by
  have : RightCommutative Occurs.mulMax := ⟨Occurs.mulMax_right_comm⟩
  induction gs with
  | nil => rfl
  | cons g gs ih =>
      rw [List.foldr_cons, around_max, ih, List.map_cons, List.foldl_cons_eq_apply_foldl]

end Components

namespace Schema

open Components

variable {s : Schema} {r g : GroupId} {gs : List GroupId} {p : Member}

theorem exists_of_firstAmong {search : Member → Except Failure (Option (List GroupId))}
    {ms : List Member} (h : firstAmong search ms = .ok (some gs)) :
    ∃ m ∈ ms, search m = .ok (some gs) := by
  induction ms with
  | nil => cases h
  | cons m ms ih =>
      simp only [firstAmong, bind, Except.bind, pure, Except.pure] at h
      split at h
      · cases h
      · next answer hm =>
          split at h
          · exact ⟨m, List.mem_cons_self, hm.trans h⟩
          · obtain ⟨m', hm', hsearch⟩ := ih h
            exact ⟨m', List.mem_cons_of_mem _ hm', hsearch⟩

/-- What the search finds is the group itself or a row from a group in it. -/
theorem found_cases {room : Nat} (h : s.chainFrom r p room g = .ok (some gs)) :
    (p ∈ (s.group g).members ∧ gs = [g]) ∨
      ∃ room' sub below, room = room' + 1 ∧ .group sub ∈ (s.group g).members ∧
        s.chainFrom r p room' sub = .ok (some below) ∧ gs = g :: below := by
  unfold chainFrom at h
  obtain ⟨m, hm, hsearch⟩ := exists_of_firstAmong h
  split at hsearch
  · next heq => exact .inl ⟨heq ▸ hm, by cases hsearch; rfl⟩
  · cases m with
    | element _ => cases hsearch
    | wildcard _ => cases hsearch
    | group sub =>
        cases room with
        | zero => cases hsearch
        | succ room =>
            simp only [bind, Except.bind, pure, Except.pure] at hsearch
            split at hsearch
            · cases hsearch
            · next found hfound =>
                cases found with
                | none => cases hsearch
                | some below =>
                    exact .inr ⟨room, sub, below, rfl, hm, hfound, by cases hsearch; rfl⟩

theorem lineage_of_chainFrom {room : Nat} (h : s.chainFrom r p room g = .ok (some gs)) :
    s.Lineage g gs p := by
  induction room generalizing g gs with
  | zero =>
      obtain ⟨hm, rfl⟩ | ⟨_, _, _, hroom, _⟩ := found_cases h
      · exact .owner hm
      · cases hroom
  | succ room ih =>
      obtain ⟨hm, rfl⟩ | ⟨_, sub, below, hroom, hm, hbelow, rfl⟩ := found_cases h
      · exact .owner hm
      · cases hroom
        exact .nested hm (ih hbelow)

/-- What the search finds leads down to the particle. -/
theorem lineage_of_chain (h : s.chain r p = .ok gs) : s.Lineage r gs p := by
  simp only [chain, bind, Except.bind, pure, Except.pure] at h
  split at h
  · cases h
  · next found hfound =>
      cases found with
      | none => cases h
      | some found =>
          cases h
          exact lineage_of_chainFrom hfound

theorem firstAmong_ok {search : Member → Except Failure (Option (List GroupId))}
    {ms : List Member} (h : ∀ m ∈ ms, ∃ answer, search m = .ok answer) :
    ∃ answer, firstAmong search ms = .ok answer ∧
      ∀ m ∈ ms, search m ≠ .ok none → answer.isSome := by
  induction ms with
  | nil => exact ⟨none, rfl, nofun⟩
  | cons m ms ih =>
      obtain ⟨first, hfirst⟩ := h m List.mem_cons_self
      simp only [firstAmong, hfirst, bind, Except.bind, pure, Except.pure]
      cases first with
      | some found => exact ⟨some found, rfl, fun _ _ _ => rfl⟩
      | none =>
          obtain ⟨answer, hanswer, hsome⟩ := ih fun m' hm' => h m' (List.mem_cons_of_mem _ hm')
          refine ⟨answer, hanswer, fun m' hm' hne => ?_⟩
          rcases List.mem_cons.1 hm' with rfl | hm'
          · exact absurd hfirst hne
          · exact hsome m' hm' hne

theorem exists_chainFrom {room : Nat}
    (hdepth : ∀ gs sub, s.Lineage g gs (.group sub) → gs.length ≤ room) :
    ∃ answer, s.chainFrom r p room g = .ok answer ∧
      ∀ gs, s.Lineage g gs p → answer.isSome := by
  -- the room is opened only at a nested group, where the limit says that there is some
  induction room using Nat.strong_induction_on generalizing g with
  | _ room ih =>
      have hnested : ∀ sub, .group sub ∈ (s.group g).members → ∃ room', room = room' + 1 ∧
          ∃ answer, s.chainFrom r p room' sub = .ok answer ∧
            ∀ gs, s.Lineage sub gs p → answer.isSome := by
        intro sub hsub
        cases room with
        | zero => exact absurd (hdepth _ _ (.owner hsub)) (Nat.not_succ_le_zero 0)
        | succ room =>
            exact ⟨room, rfl, ih room (Nat.lt_succ_self room) fun gs x h =>
              Nat.le_of_succ_le_succ (hdepth _ _ (.nested hsub h))⟩
      unfold chainFrom
      refine (firstAmong_ok fun m hm => ?_).imp fun answer h => ⟨h.1, fun gs hgs => ?_⟩
      · split
        · exact ⟨_, rfl⟩
        · cases m with
          | element _ => exact ⟨none, rfl⟩
          | wildcard _ => exact ⟨none, rfl⟩
          | group sub =>
              obtain ⟨_, rfl, answer, hanswer, -⟩ := hnested sub hm
              simp only [hanswer]
              exact ⟨_, rfl⟩
      · cases hgs with
        | owner hm => exact h.2 p hm (by rw [if_pos rfl]; nofun)
        | @nested _ sub _ _ hsub hbelow =>
            obtain ⟨_, rfl, answer', hanswer, hsome⟩ := hnested sub hsub
            obtain ⟨below, rfl⟩ := Option.isSome_iff_exists.1 (hsome _ hbelow)
            refine h.2 _ hsub ?_
            split
            · nofun
            · simp only [hanswer]
              nofun

/-- The search comes through where no group lies deeper than the limit. -/
theorem exists_chain (hdepth : ∀ gs sub, s.Lineage r gs (.group sub) →
    gs.length ≤ s.limits.maxModelDepth) (h : s.Contains r p) (hne : p ≠ .group r) :
    ∃ gs, s.chain r p = .ok gs := by
  obtain ⟨answer, hanswer, hsome⟩ := exists_chainFrom (r := r) (p := p) hdepth
  obtain ⟨gs, hgs⟩ := Lineage.of_contains h hne
  obtain ⟨found, rfl⟩ := Option.isSome_iff_exists.1 (hsome gs hgs)
  refine ⟨found, ?_⟩
  rw [chain, hanswer]
  rfl

theorem overallMin_eq (h : s.chain r p = .ok gs) :
    s.overallMin r p = .ok (gs.foldr s.around (s.occurs p)).min := by
  rw [foldr_around_min, overallMin, h]
  show (if gs.any s.isAlternative then Except.ok 0 else Except.ok _) = _
  split <;> rfl

theorem overallMax_eq (h : s.chain r p = .ok gs) : s.overallMax r p =
    .ok ((gs.map fun g => (s.group g).occurs.max).foldl Occurs.mulMaxDown (s.occurs p).max) := by
  rw [List.foldl_map, overallMax, h]
  refine congrArg (fun f => Except.ok (gs.foldl f (s.occurs p).max)) (funext₂ fun n g => ?_)
  cases n <;> cases (s.group g).occurs.max <;> rfl

/-- Both ways to work out the bounds of a particle within a root group lead along the same groups
to the same minimum. They lead to the same maximum as well, unless nothing bounds the particle or
one of the groups and a later group on the way down must not occur: the search gives no maximum
then. -/
theorem Built.overall_eq_effective (hs : s.Built) (htop : (s.group r).parent = none)
    (hchain : s.chain r p = .ok gs) :
    (gs.head? = some r ∧ gs.getLast? = s.parent? p ∧
      gs.IsChain fun g sub => (s.group sub).parent = some g) ∧
    s.overallMin r p = .ok (s.effectiveOccurs p).min ∧
    (¬ Occurs.ZeroBehindUnbounded
        ((s.occurs p).max :: gs.map fun g => (s.group g).occurs.max) →
      s.overallMax r p = .ok (s.effectiveOccurs p).max) ∧
    (Occurs.ZeroBehindUnbounded ((s.occurs p).max :: gs.map fun g => (s.group g).occurs.max) →
      s.overallMax r p = .ok none ∧ (s.effectiveOccurs p).max = some 0) := by
  have hlineage := lineage_of_chain hchain
  have hmax := Occurs.foldl_mulMaxDown (s.occurs p).max (gs.map fun g => (s.group g).occurs.max)
  rw [hs.effectiveOccurs_eq hlineage htop, foldr_around_max, overallMin_eq hchain,
    overallMax_eq hchain]
  refine ⟨⟨hlineage.head?_eq, hlineage.getLast?_eq hs.forest, hlineage.isChain hs.forest⟩, rfl,
    fun h => congrArg Except.ok (hmax.1 h), fun h => ?_⟩
  exact ⟨congrArg Except.ok (hmax.2 h).1, (hmax.2 h).2⟩

end Schema

/-- Up to twice a sequence of at least two of an `a`, a `b`, or a sequence that must not occur. -/
def overallSample : Components :=
  (((Components.withElements .v10
    [("a", ⟨2, none⟩), ("b", .once), ("c", ⟨0, none⟩)]).withGroup .sequence ⟨3, some 4⟩
    [.element ⟨0⟩]).withGroup .sequence ⟨0, some 0⟩ [.element ⟨2⟩]).withGroup .choice ⟨1, some 2⟩
    [.group ⟨0⟩, .element ⟨1⟩, .group ⟨1⟩]

theorem overall_eq_effective_sample : overallSample.schema.Built ∧
    overallSample.schema.chain ⟨2⟩ (.element ⟨0⟩) = .ok [⟨2⟩, ⟨0⟩] ∧
    overallSample.schema.overallMin ⟨2⟩ (.element ⟨0⟩) = .ok 0 ∧
    overallSample.schema.overallMax ⟨2⟩ (.element ⟨0⟩) = .ok none ∧
    overallSample.schema.overallMax ⟨2⟩ (.element ⟨1⟩) = .ok (some 2) ∧
    (overallSample.schema.effectiveOccurs (.element ⟨2⟩)).max = some 0 := by
  have hs : overallSample.schema.Built := ((((Components.assembled_withElements ..).withGroup
    ..).withGroup ..).withGroup ..).built rfl
  have hchain : ∀ i < 3, overallSample.schema.chain ⟨2⟩ (.element ⟨i⟩) =
      .ok [[⟨2⟩, ⟨0⟩], [⟨2⟩], [⟨2⟩, ⟨1⟩]][i]! := by
    decide +kernel
  have ha := hs.overall_eq_effective rfl (hchain 0 (by decide))
  have hb := hs.overall_eq_effective rfl (hchain 1 (by decide))
  have hc := hs.overall_eq_effective rfl (hchain 2 (by decide))
  refine ⟨hs, hchain 0 (by decide), ha.2.1.trans (by decide +kernel),
    (ha.2.2.1 ?_).trans (by decide +kernel), (hb.2.2.1 ?_).trans (by decide +kernel),
    (hc.2.2.2 ?_).2⟩
  · exact Occurs.zeroBehindUnbounded_none.not.2 (by decide +kernel)
  · exact fun h => absurd h.mem_none (by decide +kernel)
  · exact Occurs.zeroBehindUnbounded_none.2 (by decide +kernel)

/-- An unbounded element in a group that must not occur, within a group that occurs once. -/
def hiddenSample : Components :=
  ((Components.withElements .v10 [("a", ⟨0, none⟩)]).withGroup .sequence ⟨0, some 0⟩
    [.element ⟨0⟩]).withGroup .sequence .once [.group ⟨0⟩]

/-- The product on the way down takes the element for unbounded, although it can not occur. -/
theorem overallMax_misses_zero : hiddenSample.schema.Built ∧
    (hiddenSample.schema.group ⟨1⟩).parent = none ∧
    hiddenSample.schema.chain ⟨1⟩ (.element ⟨0⟩) = .ok [⟨1⟩, ⟨0⟩] ∧
    hiddenSample.schema.overallMax ⟨1⟩ (.element ⟨0⟩) = .ok none ∧
    (hiddenSample.schema.effectiveOccurs (.element ⟨0⟩)).max = some 0 :=
  ⟨(((Components.assembled_withElements ..).withGroup ..).withGroup ..).built rfl,
    by decide +kernel, by decide +kernel, by decide +kernel, by decide +kernel⟩

end Conform
