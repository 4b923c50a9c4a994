import Conform.Proofs.Model.AllGroup
import Conform.Proofs.Model.Flat
import Conform.Proofs.Model.Soundness
/-!
# What a content model accepts

A content without issues is a word of its group, as far as the walk compares the bounds: the maximum
of an alternative is not kept where the choice is nested and bounded, and bounds must not leave gaps.
-/

namespace Conform

namespace Components

variable {c : Components} {b : Member → Occurs}

/-! ## Single occurrences -/

theorem Words.once {m : Member} {w : List QName} (h : c.Words b m w) (hb : b m = .once) :
    c.Once b m w := by
  cases h with
  | @intro _ n _ hadmits htimes =>
    rw [hb] at hadmits
    obtain rfl : n = 1 := Nat.le_antisymm (hadmits.2 1 rfl) hadmits.1
    cases htimes with
    | succ honce hrest =>
        rw [hrest.eq_nil, List.append_nil]
        exact honce

theorem Words.admits_length {m : Member} {w : List QName} (h : c.Words b m w)
    (hm : m.isGroup = false) : (b m).Admits w.length := by
  cases h with
  | intro hadmits htimes =>
      rw [((times_leaf_iff hm).1 htimes).1]
      exact hadmits

/-! ## Members in any order -/

/-- Children of which there are as many of each member as the bounds admit are the members in some
order. -/
theorem exists_perm_row : ∀ {names : List QName} {ms : List Member}, ms.Nodup →
    (∀ m ∈ ms, ∀ m' ∈ ms, ∀ n, c.passes m n = true → c.passes m' n = true → m = m') →
    (∀ m ∈ ms, ∃ n ∈ (b m).max, n.toNat ≤ 1) →
    (∀ n ∈ names, ∃ m ∈ ms, c.passes m n = true) →
    (∀ m ∈ ms, (b m).Admits (names.countP (c.passes m))) →
    ∃ ms', ms'.Perm ms ∧ c.Row b ms' names := by
  intro names
  induction names with
  | nil =>
      intro ms _ _ _ _ hadmits
      exact ⟨ms, List.Perm.refl _, .empty fun m hm => .intro (hadmits m hm) .zero⟩
  | cons n names ih =>
      intro ms hnodup hunique hmax hnames hadmits
      obtain ⟨m, hm, hn⟩ := hnames n (List.mem_cons_self ..)
      have hcount : (n :: names).countP (c.passes m) = names.countP (c.passes m) + 1 := by
        simp [hn]
      have hnone : names.countP (c.passes m) = 0 := by
        obtain ⟨k, hk, hle⟩ := hmax m hm
        have hadmit := (hadmits m hm).2 k hk
        omega
      obtain ⟨before, after, rfl⟩ := List.append_of_mem hm
      have hsub : ∀ x ∈ before ++ after, x ∈ before ++ m :: after := by
        intro x hx
        simp only [List.mem_append, List.mem_cons] at hx ⊢
        tauto
      have hother : ∀ x ∈ before ++ after, x ≠ m := by
        rintro x hx rfl
        exact (List.nodup_middle.1 hnodup).notMem hx
      have hrest : (before ++ after).Nodup := (List.nodup_middle.1 hnodup).tail
      obtain ⟨ms', hperm, hrow⟩ := ih hrest
        (fun x hx y hy => hunique x (hsub x hx) y (hsub y hy))
        (fun x hx => hmax x (hsub x hx)) (by
          intro n' hn'
          obtain ⟨x, hx, hpasses⟩ := hnames n' (List.mem_cons_of_mem _ hn')
          have hxm : x ≠ m := by
            rintro rfl
            exact absurd hpasses (by simpa using List.countP_eq_zero.1 hnone n' hn')
          refine ⟨x, ?_, hpasses⟩
          simp only [List.mem_append, List.mem_cons] at hx ⊢
          tauto) (by
          intro x hx
          have hno : c.passes x n = false := by
            by_contra hyes
            exact hother x hx (hunique x (hsub x hx) m hm n (by simpa using hyes) hn)
          have hadmit := hadmits x (hsub x hx)
          rwa [List.countP_cons_of_neg (by simp [hno])] at hadmit)
      refine ⟨m :: ms', (hperm.cons m).trans List.perm_middle.symm, .cons (u := [n]) ?_ hrow⟩
      have hadmit := hadmits m hm
      rw [hcount, hnone] at hadmit
      exact .intro hadmit (Once.times (.leaf hn))

end Components

namespace Schema

open Components

variable {s : Schema} {root : GroupId} {names : List QName}

/-! ## Groups of members in any order -/

/-- What version 1.0 wants of the members of an `all` group. -/
theorem Built.all_member (hs : s.Built) (hv : s.version = .v10)
    (hall : (s.group root).compositor = .all) {m : Member} (hm : m ∈ (s.group root).members) :
    m.isGroup = false ∧ ∃ n ∈ (s.occurs m).max, n.toNat ≤ 1 := by
  have hfault := hs.allGroupFault?_eq_none hv root
  unfold allGroupFault? at hfault
  rw [if_neg (by simp [hall])] at hfault
  split at hfault
  · cases hfault
  split at hfault
  · cases hfault
  rw [List.findSome?_eq_none_iff] at hfault
  have hmember := hfault m hm
  cases m with
  | group g => cases hmember
  | wildcard w => cases hmember
  | element e =>
      refine ⟨rfl, ?_⟩
      by_cases hle : (s.element e).occurs.max.any (· ≤ 1) = true
      · obtain ⟨n, hn, hle⟩ := (Option.any_eq_true _ _).1 hle
        exact ⟨n, hn, by simpa [UInt32.le_iff_toNat_le] using hle⟩
      · unfold allMemberFault? at hmember
        dsimp only at hmember
        rw [if_neg hle] at hmember
        cases hmember

theorem Built.isAllOfElements (hs : s.Built) (hv : s.version = .v10)
    (hall : (s.group root).compositor = .all) (hdistinct : s.DistinctElements (s.leaves root)) :
    s.IsAllOfElements root := by
  have hfault := hs.allGroupFault?_eq_none hv root
  unfold allGroupFault? at hfault
  rw [if_neg (by simp [hall])] at hfault
  split at hfault
  · cases hfault
  split at hfault
  · cases hfault
  rename_i hoccurs
  have hleaves : s.leaves root = (s.group root).members := by
    rw [hs.leaves_eq]
    calc _ = (s.group root).members.flatMap fun m => [m] := by
          refine List.flatMap_congr fun m hm => ?_
          have hleaf := (hs.all_member hv hall hm).1
          cases m with
          | group g => cases hleaf
          | element e => rfl
          | wildcard w => rfl
      _ = (s.group root).members := List.flatMap_singleton' _
  simp only [Bool.or_eq_true, decide_eq_true_eq, not_or, ne_eq, not_not] at hoccurs
  refine ⟨hall, ?_, hoccurs.2, hleaves ▸ hdistinct⟩
  simpa [UInt32.le_iff_toNat_le] using hoccurs.1

/-- No group in a sequence or a choice is an `all` group. -/
theorem Built.contains_ne_all (hs : s.Built) (hv : s.version = .v10)
    (hall : (s.group root).compositor ≠ .all) {g : GroupId} (h : s.Contains root (.group g)) :
    (s.group g).compositor ≠ .all := by
  generalize hm : Member.group g = m at h
  cases h with
  | root =>
      cases hm
      exact hall
  | member _ hmem =>
      rw [← hm] at hmem
      exact hs.compositor_ne_all hv hmem

/-- The members of an `all` group are the only particles in it. -/
theorem Built.contains_all (hs : s.Built) (hv : s.version = .v10)
    (hall : (s.group root).compositor = .all) {m : Member} (h : s.Contains root m) :
    m = .group root ∨ m ∈ (s.group root).members := by
  induction h with
  | root => exact .inl rfl
  | member _ hm ih =>
      rcases ih with heq | hin
      · cases heq
        exact .inr hm
      · have hleaf := (hs.all_member hv hall hin).1
        cases hleaf

/-- Nothing is loosened in an `all` group. -/
theorem Built.loosened_all (hs : s.Built) (hv : s.version = .v10)
    (hall : (s.group root).compositor = .all) {m : Member} (h : s.Contains root m) :
    s.occurs m = s.loosened root m := by
  rcases hs.contains_all hv hall h with rfl | hm
  · rw [loosened_group]
    rfl
  · have howner := hs.forest.owner hm
    have hno : s.isLoosened root m = false := by simp [isLoosened, howner]
    rw [loosened_of_false hno]

/-- A content without issues is a word of an `all` group. -/
theorem Built.words_of_all (hs : s.Built) (hv : s.version = .v10)
    (hall : (s.group root).compositor = .all) (hdistinct : s.DistinctElements (s.leaves root))
    (h : s.issues root names = .ok []) : s.Words s.occurs (.group root) names := by
  have hg := hs.isAllOfElements hv hall hdistinct
  obtain ⟨issues, hissues, hiff⟩ := s.issues_all_iff hs hg names
  rw [h] at hissues
  rcases hiff.1 (Except.ok.inj hissues).symm with ⟨hnames, hadmits⟩ | ⟨rfl, hmin⟩
  · obtain ⟨ms, hperm, hrow⟩ := exists_perm_row hg.distinct.nodup
      (fun m hm m' hm' n hn hn' => hg.distinct.eq_of_passes hm hm' hn hn')
      (fun m hm => (hs.all_member hv hall hm).2) hnames hadmits
    have hone : (s.occurs (.group root)).Admits 1 := by
      refine ⟨hg.min_le, fun n hn => ?_⟩
      obtain rfl : 1 = n := Option.some.inj (hg.max.symm.trans hn)
      decide
    exact .intro hone (Once.times (.all hall hperm hrow))
  · refine .intro (n := 0) ⟨?_, fun _ _ => Nat.zero_le _⟩ .zero
    show (s.group root).occurs.min.toNat ≤ 0
    rw [hmin]
    decide

/-! ## All groups -/

/-- A content without issues is a word of its group, but for the alternatives whose maximum is not
kept. -/
theorem accepted_words {s : Schema} {root : GroupId} {names : List QName} (hs : s.Built)
    (hv : s.version = .v10) (hdistinct : s.DistinctElements (s.leaves root))
    (hmax : ∀ m, s.Contains root m → (s.occurs m).max ≠ some 0) (hgap : s.IsGapless root)
    (h : s.issues root names = .ok []) :
    s.Words (s.loosened root) (.group root) names ∧
      ((∀ m, s.Contains root m → s.isLoosened root m = false) →
        s.Words s.occurs (.group root) names) := by
  have hloosened : s.Words (s.loosened root) (.group root) names := by
    by_cases hall : (s.group root).compositor = .all
    · exact (hs.words_of_all hv hall hdistinct h).congr
        (fun m hm => hs.loosened_all hv hall hm) .root
    · have horderly : s.IsOrderly root :=
        ⟨hs, fun _ hg => hs.contains_ne_all hv hall hg, hmax, hgap⟩
      exact horderly.words h
  refine ⟨hloosened, fun hkept => ?_⟩
  exact hloosened.congr (fun m hm => loosened_of_false (hkept m hm)) .root

end Schema

theorem max_ne_zero_of_particles {c : Components}
    (hall : ∀ m ∈ c.particles, (c.occurs m).max ≠ some 0) (m : Member) :
    (c.occurs m).max ≠ some 0 :=
  Components.occurs_of_particles (P := fun o => o.max ≠ some 0) (by decide) hall m

/-- One `a`, and then any number of `b` and of `c` alone or twice. -/
def acceptedSample : Components :=
  ((Components.withElements .v10 [("a", .once), ("b", .once), ("c", ⟨0, some 2⟩)]).withGroup
    .choice .zeroOrMore [.element ⟨1⟩, .element ⟨2⟩]).withGroup .sequence .once
      [.element ⟨0⟩, .group ⟨0⟩]

theorem accepted_words_sample : acceptedSample.schema.issues ⟨1⟩
      [.plain "a", .plain "c", .plain "c", .plain "b", .plain "c"] = .ok [] ∧
    acceptedSample.schema.Words acceptedSample.schema.occurs (.group ⟨1⟩)
      [.plain "a", .plain "c", .plain "c", .plain "b", .plain "c"] := by
  have hs : acceptedSample.schema.Built :=
    (((Components.assembled_withElements ..).withGroup ..).withGroup ..).built rfl
  have hchoice : ∀ g, (acceptedSample.schema.group g).compositor = .choice → g = ⟨0⟩ := by
    rintro ⟨i⟩ hg
    match i with
    | 0 => rfl
    | 1 => exact absurd hg (by decide +kernel)
    | n + 2 =>
        have hsize : acceptedSample.schema.groups.size ≤ n + 2 :=
          Nat.le_add_left 2 n
        rw [Components.group, Array.getElem?_eq_none hsize] at hg
        cases hg
  have hgap : acceptedSample.schema.IsGapless ⟨1⟩ := by
    constructor
    · intro g _ hg
      rw [hchoice g hg]
      decide +kernel
    · intro g m _ hg hm _ _
      rw [hchoice g hg] at hm
      revert m
      decide +kernel
    · intro g sub _ hg hsub
      rw [hchoice g hg] at hsub
      simp only [show (acceptedSample.schema.group ⟨0⟩).members = [.element ⟨1⟩, .element ⟨2⟩] from
        rfl, List.mem_cons, List.not_mem_nil, reduceCtorEq, or_self] at hsub
  have hissues : acceptedSample.schema.issues ⟨1⟩
      [.plain "a", .plain "c", .plain "c", .plain "b", .plain "c"] = .ok [] := by decide +kernel
  refine ⟨hissues, (Schema.accepted_words hs rfl ⟨[⟨0⟩, ⟨1⟩, ⟨2⟩], rfl, by decide +kernel⟩
    (fun m _ => max_ne_zero_of_particles (by decide +kernel) m) hgap hissues).2 fun m _ => ?_⟩
  by_contra hyes
  simp only [Components.isLoosened, Bool.not_eq_false, Bool.and_eq_true, Option.any_eq_true,
    decide_eq_true_eq] at hyes
  obtain ⟨-, g, -, ⟨-, hg⟩, hmax⟩ := hyes
  rw [hchoice g hg] at hmax
  exact absurd hmax (by decide +kernel)

namespace Schema

/-- Children that are accepted although they are no word of the group. -/
structure AcceptsBeyond (s : Schema) (root : GroupId) (names : List QName) : Prop where
  built : s.Built
  version : s.version = .v10
  distinct : s.DistinctElements (s.leaves root)
  max_ne_zero : ∀ m, s.Contains root m → (s.occurs m).max ≠ some 0
  accepted : s.issues root names = .ok []
  not_words : ¬s.Words s.occurs (.group root) names

end Schema

/-- One optional `a` as the only alternative, and then `b`. -/
def loosenedSample : Components :=
  ((Components.withElements .v10 [("a", .optional), ("b", .once)]).withGroup .choice .once
    [.element ⟨0⟩]).withGroup .sequence .once [.group ⟨0⟩, .element ⟨1⟩]

theorem loosenedSample_not_words : ¬loosenedSample.schema.Words loosenedSample.schema.occurs
    (.group ⟨1⟩) [.plain "a", .plain "a", .plain "b"] := by
  intro h
  have hrow := (h.once (by decide +kernel)).of_sequence (by decide +kernel)
  rw [show (loosenedSample.schema.group ⟨1⟩).members = [.group ⟨0⟩, .element ⟨1⟩] from rfl,
    Components.row_cons_iff] at hrow
  obtain ⟨u, v, heq, hu, hv⟩ := hrow
  obtain ⟨m, hm, hword⟩ := (hu.once (by decide +kernel)).of_choice (by decide +kernel)
  obtain rfl : m = .element ⟨0⟩ := List.mem_singleton.1 hm
  have hshort : u.length ≤ 1 := (hword.admits_length rfl).2 1 (by decide +kernel)
  rw [Components.row_cons_iff] at hv
  obtain ⟨x, y, rfl, hx, hy⟩ := hv
  have hone : x.length ≤ 1 := (hx.admits_length rfl).2 1 (by decide +kernel)
  have hlength := congrArg List.length heq
  rw [Components.row_nil_iff.1 hy] at hlength
  simp only [List.length_append, List.length_cons, List.length_nil] at hlength
  omega

/-- Three or four `a`, once or twice. -/
def gapSample : Components :=
  (Components.withElements .v10 [("a", ⟨3, some 4⟩)]).withGroup .choice ⟨1, some 2⟩ [.element ⟨0⟩]

theorem gapSample_not_words : ¬gapSample.schema.Words gapSample.schema.occurs (.group ⟨0⟩)
    (List.replicate 5 (.plain "a")) := by
  intro h
  have honce : ∀ {w}, gapSample.schema.Once gapSample.schema.occurs (.group ⟨0⟩) w →
      3 ≤ w.length ∧ w.length ≤ 4 := by
    intro w hw
    obtain ⟨m, hm, hword⟩ := hw.of_choice (by decide +kernel)
    obtain rfl : m = .element ⟨0⟩ := List.mem_singleton.1 hm
    have hadmits := hword.admits_length rfl
    exact ⟨hadmits.1, hadmits.2 4 (by decide +kernel)⟩
  generalize hw : List.replicate 5 (QName.plain "a") = w at h
  have hlength : w.length = 5 := by rw [← hw, List.length_replicate]
  cases h with
  | @intro _ n _ hadmits htimes =>
    have hle : n ≤ 2 := hadmits.2 2 (by decide +kernel)
    cases htimes with
    | zero => cases hlength
    | succ hfirst hrest =>
      have hfirst := honce hfirst
      cases hrest with
      | zero =>
          rw [List.append_nil] at hlength
          omega
      | succ hsecond hrest =>
          have hsecond := honce hsecond
          rw [List.length_append, List.length_append] at hlength
          omega

/-- One `a`, and then a choice without alternatives. -/
def voidSample : Components :=
  ((Components.withElements .v10 [("a", .once)]).withGroup .choice .once []).withGroup .sequence
    .once [.element ⟨0⟩, .group ⟨0⟩]

theorem voidSample_not_words : ¬voidSample.schema.Words voidSample.schema.occurs (.group ⟨1⟩)
    [.plain "a"] := by
  intro h
  have hrow := (h.once (by decide +kernel)).of_sequence (by decide +kernel)
  rw [show (voidSample.schema.group ⟨1⟩).members = [.element ⟨0⟩, .group ⟨0⟩] from rfl,
    Components.row_cons_iff] at hrow
  obtain ⟨u, v, -, -, hv⟩ := hrow
  rw [Components.row_cons_iff] at hv
  obtain ⟨x, y, -, hx, -⟩ := hv
  obtain ⟨m, hm, -⟩ := (hx.once (by decide +kernel)).of_choice (by decide +kernel)
  cases hm

/-- A nested choice lets its alternative occur too often, counts that fall into a gap are rounded,
and a choice without alternatives is not missed. -/
theorem accepts_beyond_samples :
    loosenedSample.schema.AcceptsBeyond ⟨1⟩ [.plain "a", .plain "a", .plain "b"] ∧
      gapSample.schema.AcceptsBeyond ⟨0⟩ (List.replicate 5 (.plain "a")) ∧
      voidSample.schema.AcceptsBeyond ⟨1⟩ [.plain "a"] := by
  have hloosened : loosenedSample.schema.Built :=
    (((Components.assembled_withElements ..).withGroup ..).withGroup ..).built rfl
  have hgap : gapSample.schema.Built :=
    ((Components.assembled_withElements ..).withGroup ..).built rfl
  have hvoid : voidSample.schema.Built :=
    (((Components.assembled_withElements ..).withGroup ..).withGroup ..).built rfl
  refine ⟨⟨hloosened, rfl, ⟨[⟨0⟩, ⟨1⟩], rfl, by decide +kernel⟩, fun m _ => ?_, by decide +kernel,
    loosenedSample_not_words⟩, ⟨hgap, rfl, ⟨[⟨0⟩], rfl, by decide +kernel⟩, fun m _ => ?_,
    by decide +kernel, gapSample_not_words⟩, ⟨hvoid, rfl, ⟨[⟨0⟩], rfl, by decide +kernel⟩,
    fun m _ => ?_, by decide +kernel, voidSample_not_words⟩⟩
  · exact max_ne_zero_of_particles (by decide +kernel) m
  · exact max_ne_zero_of_particles (by decide +kernel) m
  · exact max_ne_zero_of_particles (by decide +kernel) m

end Conform
