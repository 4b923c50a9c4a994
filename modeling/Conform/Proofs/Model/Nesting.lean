import Conform.Proofs.Model.Repetitions
/-!
# A walk in nested groups

Where a walk stands, the children so far are cut at the groups around it: each group has some
complete repetitions behind it, and the one that the walk is in has come up to the next group.
-/

namespace Conform

section

variable (s : Schema) (root : GroupId) (counts ceilings : Tally)

/-- The bounds of a group admit one repetition more. -/
def IsOpen (g : GroupId) : Prop :=
  ∀ n ∈ (s.group g).occurs.max,
    max (counts.count (.group g)) (ceilings.count (.group g)) < n.toNat

/-- The members of a sequence that are behind a walk in this repetition: none of them has occurred,
or there is a first one. -/
inductive Progress (g : GroupId) : List Member → List QName → Prop
  | idle {done : List Member} : (∀ x ∈ done, counts.count x = 0 ∧ s.isEmptiable x = true) →
      Progress g done []
  | going {before after : List Member} {m : Member} {u v : List QName} {least greatest : Nat} :
      (∀ x ∈ before, counts.count x = 0 ∧ s.isEmptiable x = true) → 0 < counts.count m →
      Ending s root counts g m least → Measures s root counts ceilings m least greatest u →
      (s.occurs m).min.toNat ≤ greatest → s.Row (s.loosened root) after v →
      Progress g (before ++ m :: after) (u ++ v)

/-- A group whose member `m` a walk is in, and the children of this repetition before it. -/
inductive Suspended (m : Member) (f : Frame) : List QName → Prop
  | choice : (s.group f.group).compositor = .choice → m ∈ (s.group f.group).members →
      (∀ x ∈ f.rest, x ∈ (s.group f.group).members) →
      (f.matched = true → m.isGroup = false ∧ 0 < counts.count m) → Suspended m f []
  | sequence {done : List Member} {v : List QName} : (s.group f.group).compositor = .sequence →
      (s.group f.group).members = done ++ m :: f.rest →
      Progress s root counts ceilings f.group done v →
      (f.matched = false → ∀ x ∈ done, counts.count x = 0) →
      (f.matched = true → (m.isGroup = false ∧ 0 < counts.count m) ∨
        ∃ x ∈ done, 0 < counts.count x) → Suspended m f v

/-- The complete repetitions of a group, and all that is behind a walk in the groups around it. -/
inductive Level : GroupId → List Frame → List QName → Prop
  | root {least greatest : Nat} {u : List QName} :
      Measures s root counts ceilings (.group root) least greatest u →
      Fits s root counts root least → Level root [] u
  | nested {g : GroupId} {f : Frame} {outer : List Frame} {names u v : List QName}
      {least greatest : Nat} : Level f.group outer names → IsOpen s counts ceilings f.group →
      Suspended s root counts ceilings (.group g) f v →
      Measures s root counts ceilings (.group g) least greatest u →
      Fits s root counts g least → Level g (f :: outer) (names ++ v ++ u)

/-- Only groups have ceilings, and the alternatives of choices are counted while a walk stands on
them. -/
structure Tidy (counts ceilings : Tally) (current : Option Member) : Prop where
  ceiling_eq_zero : ∀ m : Member, m.isGroup = false → ceilings.count m = 0
  count_eq_zero : ∀ g m, (s.group g).compositor = .choice → m ∈ (s.group g).members →
    m.isGroup = false → current ≠ some m → counts.count m = 0

end

variable {s : Schema} {root g : GroupId} {counts ceilings counts' ceilings' : Tally} {m : Member}
  {f : Frame} {outer : List Frame} {done : List Member} {names u v : List QName}

theorem IsOpen.count_lt (h : IsOpen s counts ceilings g) :
    ∀ n ∈ (s.group g).occurs.max, counts.count (.group g) < n.toNat := by
  intro n hn
  have hlt := h n hn
  omega

theorem IsOpen.max_ne_zero (h : IsOpen s counts ceilings g) :
    (s.group g).occurs.max ≠ some 0 := by
  intro hmax
  have hlt := h 0 hmax
  exact absurd hlt (Nat.not_lt_zero _)

theorem Walk.isGroupOver_eq_false_iff {w : Walk} :
    w.isGroupOver s = false ↔ IsOpen s w.counts w.ceilings w.here.group :=
  Occurs.isOver_eq_false_iff

/-! ## Alternatives -/

namespace Tidy

variable {current : Option Member}

theorem mono (h : Tidy s counts ceilings current)
    (hcount : ∀ x, x.isGroup = false → counts'.count x = counts.count x ∨ counts'.count x = 0)
    (hceiling : ∀ x, x.isGroup = false → ceilings'.count x = ceilings.count x) :
    Tidy s counts' ceilings' current := by
  constructor
  · intro x hx
    rw [hceiling x hx]
    exact h.ceiling_eq_zero x hx
  · intro g x hchoice hmem hx hne
    rcases hcount x hx with hsame | hzero
    · rw [hsame]
      exact h.count_eq_zero g x hchoice hmem hx hne
    · exact hzero

theorem on (h : Tidy s counts ceilings none) (m : Member) : Tidy s counts ceilings (some m) :=
  ⟨h.ceiling_eq_zero, fun g x hchoice hmem hx _ => h.count_eq_zero g x hchoice hmem hx nofun⟩

theorem off (h : Tidy s counts ceilings (some m)) (hzero : counts.count m = 0) :
    Tidy s counts ceilings none := by
  refine ⟨h.ceiling_eq_zero, fun g x hchoice hmem hx _ => ?_⟩
  by_cases hxm : x = m
  · rw [hxm]
    exact hzero
  · exact h.count_eq_zero g x hchoice hmem hx fun heq => hxm (Option.some.inj heq).symm

/-- The members of a sequence are no alternatives. -/
theorem off_sequence (h : Tidy s counts ceilings (some m)) (hs : s.Built)
    (hsequence : (s.group g).compositor = .sequence) (hm : m ∈ (s.group g).members) :
    Tidy s counts ceilings none := by
  refine ⟨h.ceiling_eq_zero, fun g' x hchoice hmem hx _ => ?_⟩
  refine h.count_eq_zero g' x hchoice hmem hx fun heq => ?_
  have howner := hs.forest.owner hmem
  rw [← Option.some.inj heq, hs.forest.owner hm] at howner
  rw [← Option.some.inj howner, hsequence] at hchoice
  cases hchoice

end Tidy

/-! ## Sequences -/

namespace Progress

theorem nil : Progress s root counts ceilings g [] [] :=
  .idle fun x hx => by cases hx

theorem eq_nil (h : Progress s root counts ceilings g done v)
    (hzero : ∀ x ∈ done, counts.count x = 0) :
    v = [] ∧ ∀ x ∈ done, s.isEmptiable x = true := by
  cases h with
  | idle hidle => exact ⟨rfl, fun x hx => (hidle x hx).2⟩
  | going _ hpos =>
      rw [hzero _ (by simp)] at hpos
      omega

/-- One member more that did not occur, like all before it. -/
theorem skip (h : Progress s root counts ceilings g done v)
    (hzero : ∀ x ∈ done, counts.count x = 0) (hm : counts.count m = 0)
    (hempty : s.isEmptiable m = true) : Progress s root counts ceilings g (done ++ [m]) [] := by
  obtain ⟨-, hdone⟩ := h.eq_nil hzero
  refine .idle fun x hx => ?_
  rcases List.mem_append.1 hx with hx | hx
  · exact ⟨hzero x hx, hdone x hx⟩
  · rw [List.mem_singleton.1 hx]
    exact ⟨hm, hempty⟩

/-- One member more, where one has occurred. -/
theorem snoc {least greatest : Nat} (h : Progress s root counts ceilings g done v) (hs : s.Built)
    (hcounted : 0 < counts.count m ∨ ∃ x ∈ done, 0 < counts.count x)
    (hending : Ending s root counts g m least)
    (hleast : ∀ n ∈ (s.loosened root m).max, least ≤ n.toNat)
    (hm : Measures s root counts ceilings m least greatest u)
    (hmin : (s.occurs m).min.toNat ≤ greatest) :
    Progress s root counts ceilings g (done ++ [m]) (v ++ u) := by
  cases h with
  | idle hidle =>
      have hpos : 0 < counts.count m := by
        rcases hcounted with hpos | ⟨x, hx, hpos⟩
        · exact hpos
        · rw [(hidle x hx).1] at hpos
          omega
      have hgoing := Progress.going hidle hpos hending hm hmin .nil
      rwa [List.append_nil] at hgoing
  | going hbefore hpos hfirst hmeasure hfirstMin hrow =>
      rw [List.append_assoc, List.cons_append, List.append_assoc]
      exact .going hbefore hpos hfirst hmeasure hfirstMin
        (hrow.append (.singleton (hm.words hs hleast hmin)))

theorem congr (h : Progress s root counts ceilings g done v)
    (hsame : ∀ x ∈ done, counts'.count x = counts.count x ∧
      ceilings'.count x = ceilings.count x) : Progress s root counts' ceilings' g done v := by
  cases h with
  | idle hidle =>
      refine .idle fun x hx => ?_
      rw [(hsame x hx).1]
      exact hidle x hx
  | @going before _ m _ _ _ _ hbefore hpos hfirst hmeasure hmin hrow =>
      obtain ⟨hcount, hceiling⟩ := hsame m (by simp)
      refine .going (fun x hx => ?_) ?_ ⟨hfirst.mem, hfirst.least_le, ?_⟩
        (hmeasure.congr hcount hceiling) hmin hrow
      · rw [(hsame x (by simp [hx])).1]
        exact hbefore x hx
      · rw [hcount]
        exact hpos
      · rw [hcount]
        exact hfirst.count_le

end Progress

/-! ## Groups around a walk -/

theorem Suspended.mem (h : Suspended s root counts ceilings m f v) :
    m ∈ (s.group f.group).members := by
  cases h with
  | choice _ hmem => exact hmem
  | sequence _ hmembers =>
      rw [hmembers]
      simp

/-- Only the other members of the group count. -/
theorem Suspended.congr {sub : GroupId} (h : Suspended s root counts ceilings (.group sub) f v)
    (hs : s.Built) (hsame : ∀ x ∈ (s.group f.group).members, x ≠ .group sub →
      counts'.count x = counts.count x ∧ ceilings'.count x = ceilings.count x) :
    Suspended s root counts' ceilings' (.group sub) f v := by
  cases h with
  | choice hchoice hmem hrest hmatched =>
      refine .choice hchoice hmem hrest fun htrue => ?_
      cases (hmatched htrue).1
  | @sequence done _ hsequence hmembers hprogress hunmatched hmatched =>
      have hdone : ∀ x ∈ done, counts'.count x = counts.count x ∧
          ceilings'.count x = ceilings.count x := by
        intro x hx
        have hnodup := hs.forest.nodup f.group
        rw [hmembers] at hnodup
        refine hsame x (by simp [hmembers, hx]) ?_
        rintro rfl
        exact (List.disjoint_of_nodup_append hnodup) hx (by simp)
      refine .sequence hsequence hmembers (hprogress.congr hdone) (fun hfalse x hx => ?_)
        fun htrue => .inr ?_
      · rw [(hdone x hx).1]
        exact hunmatched hfalse x hx
      · rcases hmatched htrue with ⟨hleaf, -⟩ | ⟨x, hx, hpos⟩
        · cases hleaf
        · refine ⟨x, hx, ?_⟩
          rw [(hdone x hx).1]
          exact hpos

theorem IsOpen.congr (h : IsOpen s counts ceilings g)
    (hcount : counts'.count (.group g) = counts.count (.group g))
    (hceiling : ceilings'.count (.group g) = ceilings.count (.group g)) :
    IsOpen s counts' ceilings' g := by
  unfold IsOpen
  rw [hcount, hceiling]
  exact h

namespace Level

theorem contains (h : Level s root counts ceilings g outer names) :
    s.Contains root (.group g) := by
  induction h with
  | root => exact .root
  | nested _ _ hsuspended _ _ ih => exact ih.member hsuspended.mem

theorem index_lt (h : Level s root counts ceilings g outer names) (hs : s.Built) :
    ∀ f ∈ outer, g.index < f.group.index := by
  induction h with
  | root =>
      intro f hf
      cases hf
  | nested _ _ hsuspended _ _ ih =>
      have hlt := hs.forest.index_lt hsuspended.mem
      intro f' hf'
      rcases List.mem_cons.1 hf' with rfl | hf'
      · exact hlt
      · have hrest := ih f' hf'
        omega

theorem congr (h : Level s root counts ceilings g outer names) (hs : s.Built)
    (hhere : counts'.count (.group g) = counts.count (.group g) ∧
      ceilings'.count (.group g) = ceilings.count (.group g))
    (hsame : ∀ f ∈ outer, ∀ x, x ∈ (s.group f.group).members ∨ x = .group f.group →
      counts'.count x = counts.count x ∧ ceilings'.count x = ceilings.count x) :
    Level s root counts' ceilings' g outer names := by
  induction h with
  | root hmeasure hfits => exact .root (hmeasure.congr hhere.1 hhere.2) (hfits.congr hhere.1)
  | @nested _ f _ _ _ _ _ _ _ hopen hsuspended hmeasure hfits ih =>
      have hf := hsame f (List.mem_cons_self ..)
      have hgroup := hf (.group f.group) (.inr rfl)
      refine .nested ?_ (hopen.congr hgroup.1 hgroup.2) ?_ (hmeasure.congr hhere.1 hhere.2)
        (hfits.congr hhere.1)
      · exact ih hgroup fun f' hf' => hsame f' (List.mem_cons_of_mem _ hf')
      · exact hsuspended.congr hs fun x hx _ => hf x (.inl hx)

/-- What is known of the groups around a group does not depend on what is counted in it. -/
theorem replace (h : Level s root counts ceilings g outer names) (hs : s.Built)
    (hsame : ∀ x, x ≠ .group g → x ∉ (s.group g).members →
      counts'.count x = counts.count x ∧ ceilings'.count x = ceilings.count x) :
    ∃ around least greatest u, names = around ++ u ∧
      Measures s root counts ceilings (.group g) least greatest u ∧ Fits s root counts g least ∧
      ∀ {least' greatest' u'},
        Measures s root counts' ceilings' (.group g) least' greatest' u' →
        Fits s root counts' g least' →
        Level s root counts' ceilings' g outer (around ++ u') := by
  have hlt := h.index_lt hs
  cases h with
  | root hmeasure hfits =>
      exact ⟨[], _, _, _, rfl, hmeasure, hfits, fun hmeasure' hfits' => .root hmeasure' hfits'⟩
  | @nested _ f outer _ _ _ _ _ hlevel hopen hsuspended hmeasure hfits =>
      have hfar : ∀ f' ∈ outer, f.group.index < f'.group.index := hlevel.index_lt hs
      have hout : ∀ x, x ∈ (s.group g).members → x ∉ (s.group f.group).members := by
        intro x hx hx'
        have howner := hs.forest.owner hx
        rw [hs.forest.owner hx'] at howner
        have hindex := hlt f (List.mem_cons_self ..)
        rw [Option.some.inj howner] at hindex
        omega
      have hgroup : ∀ f' ∈ f :: outer, counts'.count (.group f'.group) =
          counts.count (.group f'.group) ∧
            ceilings'.count (.group f'.group) = ceilings.count (.group f'.group) := by
        intro f' hf'
        have hindex := hlt f' hf'
        refine hsame _ ?_ fun hmem => ?_
        · intro heq
          rw [Member.group.inj heq] at hindex
          omega
        · have hback := hs.forest.index_lt hmem
          omega
      refine ⟨_, _, _, _, rfl, hmeasure, hfits, fun hmeasure' hfits' =>
        .nested (hlevel.congr hs (hgroup f (List.mem_cons_self ..)) ?_)
          (hopen.congr (hgroup f (List.mem_cons_self ..)).1 (hgroup f (List.mem_cons_self ..)).2)
          (hsuspended.congr hs fun x hx hne => hsame x hne fun hmem => hout x hmem hx)
          hmeasure' hfits'⟩
      intro f' hf' x hx
      rcases hx with hx | rfl
      · have hindex := hfar f' hf'
        refine hsame x ?_ fun hmem => ?_
        · rintro rfl
          have howner := hs.forest.owner hsuspended.mem
          rw [hs.forest.owner hx] at howner
          rw [Option.some.inj howner] at hindex
          omega
        · have howner := hs.forest.owner hmem
          rw [hs.forest.owner hx] at howner
          have hindex' := hlt f' (List.mem_cons_of_mem _ hf')
          rw [Option.some.inj howner] at hindex'
          omega
      · exact hgroup f' (List.mem_cons_of_mem _ hf')

/-- The counts of the members of a group say nothing of its complete repetitions. -/
theorem keep (h : Level s root counts ceilings g outer names) (hs : s.Built)
    (hsame : ∀ x, x ∉ (s.group g).members →
      counts'.count x = counts.count x ∧ ceilings'.count x = ceilings.count x) :
    Level s root counts' ceilings' g outer names := by
  obtain ⟨around, least, greatest, u, rfl, hmeasure, hfits, hlevel⟩ :=
    h.replace hs fun x _ hx => hsame x hx
  have hgroup := hsame (.group g) fun hmem => hs.forest.ne_of_mem hmem rfl
  exact hlevel (hmeasure.congr hgroup.1 hgroup.2) (hfits.congr hgroup.1)

end Level

end Conform
