import Conform.Proofs.Model.Nesting
/-!
# Leaving the members of nested groups

When a walk leaves a member, the member is added to the repetition of the group around it, or ends
the repetition, or ends that group as well. What the walk has counted still stands for the children
so far.
-/

namespace Conform

/-- A content of sequences and choices that may occur, with bounds that leave no gap. -/
structure Schema.IsOrderly (s : Schema) (root : GroupId) : Prop where
  built : s.Built
  compositor : ∀ g, s.Contains root (.group g) → (s.group g).compositor ≠ .all
  max_ne_zero : ∀ m, s.Contains root m → (s.occurs m).max ≠ some 0
  gapless : s.IsGapless root

theorem Schema.IsOrderly.max_pos {s : Schema} {root : GroupId} (h : s.IsOrderly root) {m : Member}
    (hm : s.Contains root m) : ∀ n ∈ (s.occurs m).max, 0 < n.toNat :=
  fun _ hn => Occurs.max_pos (h.max_ne_zero m hm) hn

section

variable (s : Schema) (root : GroupId) (counts ceilings : Tally)

/-- A walk that leaves the member `m` of the group `f`. -/
inductive AtEnd (m : Member) (f : Frame) (outer : List Frame) : List QName → Prop
  | intro {names u v : List QName} {least greatest : Nat} :
      Level s root counts ceilings f.group outer names → IsOpen s counts ceilings f.group →
      Suspended s root counts ceilings m f v →
      Measures s root counts ceilings m least greatest u →
      Ending s root counts f.group m least → AtEnd m f outer (names ++ v ++ u)

/-- A group in which a walk looks for the next member, and the children of this repetition. At the
end of a sequence the repetition is complete. -/
inductive Between (f : Frame) : List QName → Prop
  | choice : (s.group f.group).compositor = .choice → f.matched = false →
      (∀ x ∈ f.rest, x ∈ (s.group f.group).members) → Between f []
  | sequence {done : List Member} {v : List QName} : (s.group f.group).compositor = .sequence →
      (s.group f.group).members = done ++ f.rest →
      Progress s root counts ceilings f.group done v → IsOpen s counts ceilings f.group →
      (f.matched = false → ∀ x ∈ done, counts.count x = 0) →
      (f.matched = true → f.rest ≠ [] ∧ ∃ x ∈ done, 0 < counts.count x) → Between f v
  | complete : (s.group f.group).compositor = .sequence → f.matched = true → f.rest = [] →
      Between f []

end

namespace Walk

/-- A walk that looks for the next member, behind the children `names`. -/
inductive Cursor (s : Schema) (root : GroupId) (w : Walk) : List QName → Prop
  | intro {names v : List QName} : Tidy s w.counts w.ceilings none →
      Level s root w.counts w.ceilings w.here.group w.outer names →
      Between s root w.counts w.ceilings w.here v → Cursor s root w (names ++ v)

/-- A walk that ends in the root group. What it does not report if the group is missing has enough
repetitions, or can be empty. -/
structure RootEnds (s : Schema) (root : GroupId) (w : Walk) (names : List QName) : Prop where
  here : w.here.group = root
  measures : ∃ least greatest,
    Measures s root w.counts w.ceilings (.group root) least greatest names
  enough : (s.group root).occurs.min.toNat ≤ w.reach (.group root) ∨
    s.Once (s.loosened root) (.group root) [] ∨ (s.group root).compositor = .choice

/-- Where a walk comes to behind a member. -/
def Closes (s : Schema) (root : GroupId) (names : List QName) : Option Bool × Walk → Prop
  | (some _, w) => Cursor s root w names
  | (none, w) => RootEnds s root w names

end Walk

open Walk

variable {s : Schema} {root g : GroupId} {counts ceilings : Tally} {m : Member} {w : Walk}
  {f : Frame} {outer : List Frame} {names u v : List QName} {least greatest : Nat}

namespace Measures

theorem ceilingOrCount_le (h : Measures s root w.counts w.ceilings m least greatest u) :
    w.ceilingOrCount m ≤ greatest := by
  unfold Walk.ceilingOrCount
  split
  · exact h.le_greatest
  · exact h.ceiling_le

theorem reach_le (h : Measures s root w.counts w.ceilings m least greatest u) :
    w.reach m ≤ greatest :=
  Nat.max_le.2 ⟨h.le_greatest, h.ceiling_le⟩

/-- A member that can be empty occurred as often as it must. -/
theorem enough (h : Measures s root counts ceilings m least greatest u)
    (hexcused : s.Words (s.loosened root) m [] ∨ (s.occurs m).min.toNat ≤ greatest) :
    ∃ greatest', Measures s root counts ceilings m least greatest' u ∧ greatest ≤ greatest' ∧
      (s.occurs m).min.toNat ≤ greatest' := by
  by_cases hmin : (s.occurs m).min.toNat ≤ greatest
  · exact ⟨greatest, h, Nat.le_refl _, hmin⟩
  have hword : s.Words (s.loosened root) m [] := hexcused.resolve_right hmin
  have honce : s.Once (s.loosened root) m [] := by
    cases hword with
    | @intro _ n _ hadmits htimes =>
        have hn := hadmits.1
        rw [Components.min_loosened] at hn
        obtain ⟨k, rfl⟩ := Nat.exists_eq_add_of_le' (by omega : 1 ≤ n)
        exact htimes.once_nil
  have hle := h.le_greatest
  have hceiling := h.ceiling_le
  refine ⟨(s.occurs m).min.toNat, ⟨h.least_le, by omega, by omega, h.ceiling_eq_zero, ?_⟩,
    by omega, Nat.le_refl _⟩
  intro k hk _
  rcases Nat.le_total k greatest with hsmall | hlarge
  · exact h.times k hk hsmall
  · exact (h.times greatest h.least_le_greatest (Nat.le_refl _)).pad honce hlarge

end Measures

/-! ## Leaves and groups that end -/

/-- A leaf ends in its group. Beyond its maximum it is an alternative that the bounds leave open. -/
theorem Ending.of_leaf (hg : s.IsOrderly root) (hin : s.Contains root (.group g))
    (hm : m ∈ (s.group g).members) (hleaf : m.isGroup = false)
    (hfit : (∀ n ∈ (s.occurs m).max, counts.count m ≤ n.toNat) ∨
      (s.group g).compositor = .choice ∧ (s.occurs m).isAmbiguous = true) :
    Ending s root counts g m (counts.count m) := by
  rcases hfit with hle | ⟨hchoice, hambiguous⟩
  · exact ⟨hm, .inl fun n hn => hle n (Components.mem_max_of_loosened hn), .inl hle⟩
  refine ⟨hm, ?_, ?_⟩
  · by_cases hroot : g = root
    · exact .inr ⟨hchoice, .inl hroot⟩
    by_cases hmax : (s.group g).occurs.max = none
    · exact .inr ⟨hchoice, .inr hmax⟩
    refine .inl fun n hn => ?_
    rw [Components.max_loosened hg.built.forest hm hleaf hchoice hambiguous hroot hmax] at hn
    cases hn
  · by_cases hnone : (s.occurs m).max = none
    · refine .inl fun n hn => ?_
      rw [hnone] at hn
      cases hn
    refine .inr ⟨fun _ => hg.gapless.leaf g m hin hchoice hm hleaf hambiguous, ?_⟩
    by_cases hmax : (s.group g).occurs.max = none
    · exact .inl hmax
    · exact .inr (.leaf hmax hchoice hm hleaf hambiguous hnone)

/-- A group ends in the group around it. -/
theorem Level.atEnd (h : Level s root counts ceilings g (f :: outer) names)
    (hg : s.IsOrderly root) : AtEnd s root counts ceilings (.group g) f outer names := by
  cases h with
  | nested hlevel hopen hsuspended hmeasure hfits =>
      exact .intro hlevel hopen hsuspended hmeasure
        (hfits.ending hg.built hg.gapless hlevel.contains hsuspended.mem)

/-! ## Choices -/

/-- The end of an alternative that was there. -/
theorem Walk.closeInChoice_counted (hpos : 0 < w.count m) : ∃ more,
    ((s.occurs m).max = none → more = 1) ∧
    (∀ n ∈ (s.occurs m).max, 0 < n.toNat → more = ceilDiv (w.count m) n.toNat) ∧
    w.closeInChoice s m = ((s.occurs m).isMissing (w.ceilingOrCount m),
      ⟨w.root, w.version, ⟨w.here.group, items s w.version w.here.group, false⟩, w.outer,
        (w.counts.add w.hereMember more).set m 0,
        w.ceilings.add w.hereMember
          (max 1 (w.ceilingOrCount m / max 1 (s.occurs m).min.toNat)), w.current⟩) := by
  unfold closeInChoice
  rw [if_neg (by omega)]
  refine ⟨_, ?_, ?_, rfl⟩
  · intro hnone
    rw [hnone]
  · intro n hn hn'
    rw [Option.mem_def] at hn
    have hne : n ≠ 0 := by
      rintro rfl
      exact absurd hn' (by decide)
    rw [hn]
    exact if_neg hne

theorem AtEnd.closes_choice (hg : s.IsOrderly root) (htidy : Tidy s w.counts w.ceilings (some m))
    (h : AtEnd s root w.counts w.ceilings m w.here w.outer names)
    (hchoice : (s.group w.here.group).compositor = .choice)
    (hexcused : (w.closeInChoice s m).1 = true →
      s.isEmptiable m = true ∨ (s.occurs m).min.toNat ≤ w.reach m) :
    Cursor s root (w.closeInChoice s m).2 names := by
  cases h with
  | @intro names u v least greatest hlevel hopen hsuspended hmeasure hending =>
    cases hsuspended with
    | sequence hsequence =>
        rw [hchoice] at hsequence
        cases hsequence
    | choice _ hmem hrest hmatched =>
      have hin := hlevel.contains
      rw [List.append_nil]
      by_cases hcount : w.count m = 0
      · have hunmatched : w.here.matched = false := by
          by_contra hno
          have hpos := (hmatched (by simpa using hno)).2
          rw [show w.counts.count m = 0 from hcount] at hpos
          omega
        rw [closeInChoice_zero hcount, hmeasure.eq_nil hcount]
        exact .intro (htidy.off hcount) (by simpa using hlevel) (.choice hchoice hunmatched hrest)
      · obtain ⟨more, hnone, hsome, hclose⟩ :=
          closeInChoice_counted (s := s) (Nat.pos_of_ne_zero hcount)
        have hne : Member.group w.here.group ≠ m :=
          fun heq => hg.built.forest.ne_of_mem (heq ▸ hmem) rfl
        obtain ⟨greatest', hmeasure', hle, hmin⟩ := hmeasure.enough (by
          by_cases hmissing : (w.closeInChoice s m).1 = true
          · rcases hexcused hmissing with hempty | hreach
            · exact .inl (hg.built.words_nil hg.gapless (hin.member hmem) hempty)
            · exact .inr (hreach.trans hmeasure.reach_le)
          · rw [hclose] at hmissing
            have henough : (s.occurs m).min.toNat ≤ w.ceilingOrCount m := by
              simpa [Occurs.isMissing] using hmissing
            exact .inr (henough.trans hmeasure.ceilingOrCount_le))
        have hpos := hg.max_pos (hin.member hmem)
        obtain ⟨r₀, htimes, hmore, hlow, hleast, hover⟩ := hending.times_choice hg.built hpos
          hmeasure' hchoice (Nat.pos_of_ne_zero hcount) hmin hmeasure'.ceilingOrCount_le hnone
          fun n hn => hsome n hn (hpos n hn)
        have hsame : ∀ x, x ≠ .group w.here.group → x ∉ (s.group w.here.group).members →
            ((w.counts.add w.hereMember more).set m 0).count x = w.counts.count x ∧
              (w.ceilings.add w.hereMember (max 1 (w.ceilingOrCount m /
                max 1 (s.occurs m).min.toNat))).count x = w.ceilings.count x := by
          intro x hx hxmem
          have hxm : x ≠ m := fun heq => hxmem (heq ▸ hmem)
          simp [hereMember, hx, hxm]
        rw [hclose]
        obtain ⟨around, l, h, u₀, rfl, hgroup, -, hlevel'⟩ := hlevel.replace hg.built hsame
        rw [List.append_assoc, ← List.append_nil (around ++ (u₀ ++ u))]
        refine .intro ?_ (hlevel' (hgroup.add htimes ?_ ?_ hmore hlow (Nat.le_max_left _ _))
          (.add hgroup.least_le hopen.count_lt ?_ hleast hover))
          (.choice hchoice rfl ?_)
        · refine .off (m := m) (htidy.mono (fun x hx => ?_) fun x hx => ?_) (by simp)
          all_goals
            have hxg : x ≠ .group w.here.group := by
              rintro rfl
              cases hx
          · by_cases hxm : x = m
            · exact .inr (by simp [hxm])
            · exact .inl (by simp [hereMember, hxm, hxg])
          · simp [hereMember, hxg]
        · simp [hereMember, hne]
        · simp only [hereMember, Tally.count_add, if_true]
          exact Nat.add_le_add_left (Nat.le_max_right _ _) _
        · simp [hereMember, hne]
        · intro x hx
          rw [items_of_ne_all (by simp [hchoice]) (hg.max_ne_zero _ hin)] at hx
          exact hx

/-! ## Sequences -/

/-- The repetitions of a sequence that a member stands for, rounded down, are admitted. -/
theorem Ending.max_div (h : Ending s root counts g m least) (hs : s.Built)
    (hcount : counts.count m ≤ greatest) (hmin : (s.occurs m).min.toNat ≤ greatest) {most : Nat}
    (hnone : (s.occurs m).max = none → most = counts.count m)
    (hsome : ∀ n ∈ (s.occurs m).max, most = n.toNat) :
    max 1 (counts.count m / most) * (s.occurs m).min.toNat ≤ greatest ∧
      (max 1 (counts.count m / most) = 1 ∨ (s.group g).occurs.max = none ∨ s.Overruns g) := by
  have hself : counts.count m / counts.count m ≤ 1 := by
    rcases Nat.eq_zero_or_pos (counts.count m) with hzero | hpos
    · simp [hzero]
    · rw [Nat.div_self hpos]
  constructor
  · rcases Nat.le_total (counts.count m / most) 1 with hle | hle
    · rw [Nat.max_eq_left hle, Nat.one_mul]
      exact hmin
    · rw [Nat.max_eq_right hle]
      cases hmax : (s.occurs m).max with
      | none =>
          rw [hnone hmax]
          calc counts.count m / counts.count m * (s.occurs m).min.toNat
              ≤ 1 * (s.occurs m).min.toNat := Nat.mul_le_mul_right _ hself
            _ = (s.occurs m).min.toNat := Nat.one_mul _
            _ ≤ greatest := hmin
      | some n =>
          rw [hsome n hmax]
          calc counts.count m / n.toNat * (s.occurs m).min.toNat
              ≤ counts.count m / n.toNat * n.toNat :=
                Nat.mul_le_mul_left _ (hs.min_le_max m n hmax)
            _ ≤ counts.count m := Nat.div_mul_le_self _ _
            _ ≤ greatest := hcount
  · rcases h.count_le with hle | ⟨-, hover⟩
    · refine .inl (Nat.max_eq_left ?_)
      cases hmax : (s.occurs m).max with
      | none =>
          rw [hnone hmax]
          exact hself
      | some n =>
          rw [hsome n hmax]
          exact Nat.div_le_of_le_mul (by simpa using hle n hmax)
    · exact .inr hover

/-- A sequence of which the first member that was there may have occurred in several repetitions. -/
theorem Walk.countSequence_several {after : List Member}
    (hdrop : (s.group w.here.group).members.dropWhile (fun x => w.count x = 0) = m :: after)
    (hno : ¬(w.ceilingOrCount m = 1 || after.any fun x => !s.isEmptiable x) = true) :
    ∃ most, ((s.occurs m).max = none → most = w.count m) ∧
      (∀ n ∈ (s.occurs m).max, n ≠ 0 → most = n.toNat) ∧
      w.countSequence s = ⟨w.root, w.version, w.here, w.outer,
        w.counts.add w.hereMember (max 1 (w.count m / most)),
        w.ceilings.add w.hereMember
          (max 1 (w.ceilingOrCount m / max 1 (s.occurs m).min.toNat)), w.current⟩ := by
  unfold countSequence
  rw [hdrop]
  simp only
  rw [if_neg hno]
  refine ⟨_, ?_, ?_, rfl⟩
  · intro hnone
    rw [hnone]
  · intro n hn hne
    rw [Option.mem_def] at hn
    rw [hn]
    exact if_neg hne

/-- The end of a repetition of a sequence. -/
theorem Progress.countSequence (hg : s.IsOrderly root)
    (h : Progress s root w.counts w.ceilings w.here.group (s.group w.here.group).members v)
    (hlevel : Level s root w.counts w.ceilings w.here.group w.outer names)
    (hopen : IsOpen s w.counts w.ceilings w.here.group)
    (hsequence : (s.group w.here.group).compositor = .sequence)
    (hcounted : ∃ x ∈ (s.group w.here.group).members, 0 < w.count x) :
    Level s root (w.countSequence s).counts (w.countSequence s).ceilings w.here.group w.outer
      (names ++ v) := by
  have hin := hlevel.contains
  obtain ⟨counts', ceilings', heq, hother⟩ := w.countSequence_eq s
  obtain ⟨around, l, h', u₀, rfl, hgroup, -, hlevel'⟩ :=
    hlevel.replace hg.built fun x hx _ => hother x hx
  rw [List.append_assoc]
  generalize hmembers : (s.group w.here.group).members = members at h
  cases h with
  | idle hidle =>
      obtain ⟨x, hx, hpos⟩ := hcounted
      rw [hmembers] at hx
      rw [show w.count x = 0 from (hidle x hx).1] at hpos
      omega
  | @going before after m u v least greatest hbefore hpos hending hmeasure hmin hafter =>
    have hempty : ∀ x ∈ (s.group w.here.group).members, s.isEmptiable x = true →
        s.Words (s.loosened root) x [] :=
      fun x hx => hg.built.words_nil hg.gapless (hin.member hx)
    have hbeforeWords : ∀ x ∈ before, s.Words (s.loosened root) x [] :=
      fun x hx => hempty x (by simp [hmembers, hx]) (hbefore x hx).2
    have hdrop : (s.group w.here.group).members.dropWhile (fun x => w.count x = 0) =
        m :: after := by
      rw [hmembers, List.dropWhile_append_of_pos, List.dropWhile_cons_of_neg]
      · rw [show w.count m = w.counts.count m from rfl]
        simpa using Nat.ne_of_gt hpos
      · intro x hx
        exact decide_eq_true (hbefore x hx).1
    by_cases hone : (w.ceilingOrCount m = 1 || after.any fun x => !s.isEmptiable x) = true
    · have hsingle : w.countSequence s = { w with counts := w.counts.add w.hereMember 1 } := by
        unfold Walk.countSequence
        rw [hdrop]
        exact if_pos hone
      rw [heq] at hsingle
      cases hsingle
      have htimes := hending.times_sequence 1 0 hg.built hmeasure hsequence
        hmembers hbeforeWords hafter hmin (Nat.zero_le _) (by omega) (by
          intro htwo
          simp at htwo)
      rw [Nat.zero_div] at htimes
      rw [heq]
      refine hlevel' (hgroup.add htimes ?_ (Nat.le_add_right _ _) Nat.one_pos (Nat.le_refl _)
        (Nat.le_refl _)) (.add hgroup.least_le hopen.count_lt ?_ (.inl rfl) (.inl rfl))
      · simp [hereMember]
      · simp [hereMember]
    · have hlater : ∀ x ∈ after, s.Words (s.loosened root) x [] := by
        intro x hx
        refine hempty x (by simp [hmembers, hx]) ?_
        by_contra hno
        refine hone ?_
        rw [Bool.or_eq_true, List.any_eq_true]
        exact .inr ⟨x, hx, by simpa using hno⟩
      obtain ⟨most, hnone, hsome, hseveral⟩ := countSequence_several hdrop hone
      rw [heq] at hseveral
      cases hseveral
      have hmax := hg.max_ne_zero m (hin.member (by simp [hmembers]))
      obtain ⟨hmore, hover⟩ := hending.max_div hg.built hmeasure.le_greatest hmin hnone
        fun n hn => hsome n hn fun hzero => hmax (hzero ▸ hn)
      have htimes := hending.times_sequence _ _ hg.built hmeasure hsequence hmembers hbeforeWords
        hafter hmin hmeasure.ceilingOrCount_le hmore fun _ => hlater
      rw [heq]
      refine hlevel' (hgroup.add htimes ?_ ?_ ?_ ?_ (Nat.le_max_left _ _))
        (.add hgroup.least_le hopen.count_lt ?_ (.inl rfl) hover)
      · simp [hereMember, count]
      · simp only [hereMember, Tally.count_add, if_true]
        exact Nat.add_le_add_left (Nat.le_max_right _ _) _
      · exact Nat.lt_of_lt_of_le Nat.one_pos (Nat.le_max_left _ _)
      · exact Nat.le_max_left _ _
      · simp [hereMember, count]

/-- The end of a member of a sequence in which something has occurred. -/
theorem AtEnd.closes_sequence (hg : s.IsOrderly root) (htidy : Tidy s w.counts w.ceilings (some m))
    (h : AtEnd s root w.counts w.ceilings m w.here w.outer names)
    (hsequence : (s.group w.here.group).compositor = .sequence)
    (hcounted : w.here.matched = true ∨ 0 < w.count m)
    (hexcused : (closeInSequence s { w with here := { w.here with matched := true } } m).1 = true →
      s.isEmptiable m = true ∨ (s.occurs m).min.toNat ≤ w.reach m) :
    Cursor s root (closeInSequence s { w with here := { w.here with matched := true } } m).2
      names := by
  cases h with
  | @intro names u v least greatest hlevel hopen hsuspended hmeasure hending =>
    cases hsuspended with
    | choice hchoice =>
        rw [hsequence] at hchoice
        cases hchoice
    | @sequence done _ _ hmembers hprogress _ hmatched =>
      have hin := hlevel.contains
      have hmem : m ∈ (s.group w.here.group).members := hending.mem
      have hne : m ≠ .group w.here.group :=
        fun heq => hg.built.forest.ne_of_mem (heq ▸ hmem) rfl
      have hnodup := hg.built.forest.nodup w.here.group
      have hlast : (s.group w.here.group).members.getLast? = some m ↔ w.here.rest = [] := by
        rw [hmembers] at hnodup ⊢
        exact getLast?_eq_some_iff hnodup
      have hsome : 0 < w.counts.count m ∨ ∃ x ∈ done, 0 < w.counts.count x := by
        rcases hcounted with htrue | hpos
        · rcases hmatched htrue with ⟨-, hpos⟩ | hdone
          · exact .inl hpos
          · exact .inr hdone
        · exact .inl hpos
      have hleast : ∀ n ∈ (s.loosened root m).max, least ≤ n.toNat := by
        rcases hending.least_le with hle | ⟨hchoice, -⟩
        · exact hle
        · rw [hsequence] at hchoice
          cases hchoice
      obtain ⟨counts', ceilings', heq, hother⟩ :=
        Walk.countSequence_eq s { w with here := { w.here with matched := true } }
      have hflag : (closeInSequence s { w with here := { w.here with matched := true } } m).1 =
          (s.occurs m).isMissing (w.reach m) := by
        unfold closeInSequence
        split
        · rw [heq]
          simp only [reach, (hother m hne).1, (hother m hne).2]
        · rfl
      rw [hflag] at hexcused
      obtain ⟨greatest', hmeasure', -, hmin⟩ := hmeasure.enough (by
        by_cases hmissing : (s.occurs m).isMissing (w.reach m) = true
        · rcases hexcused hmissing with hempty | hreach
          · exact .inl (hg.built.words_nil hg.gapless (hin.member hmem) hempty)
          · exact .inr (hreach.trans hmeasure.reach_le)
        · have henough : (s.occurs m).min.toNat ≤ w.reach m := by
            simpa [Occurs.isMissing] using hmissing
          exact .inr (henough.trans hmeasure.reach_le))
      have hafter := hprogress.snoc hg.built hsome hending hleast hmeasure' hmin
      have hcountedAfter : ∃ x ∈ done ++ [m], 0 < w.counts.count x := by
        rcases hsome with hpos | ⟨x, hx, hpos⟩
        · exact ⟨m, by simp, hpos⟩
        · exact ⟨x, by simp [hx], hpos⟩
      unfold closeInSequence
      dsimp only
      by_cases hrest : w.here.rest = []
      · rw [if_pos (hlast.2 hrest)]
        have hwhole : (s.group w.here.group).members = done ++ [m] := by rw [hmembers, hrest]
        rw [← hwhole] at hafter hcountedAfter
        have hlevel' := Progress.countSequence
          (w := { w with here := { w.here with matched := true } }) hg hafter hlevel hopen
          hsequence hcountedAfter
        rw [heq] at hlevel' ⊢
        rw [List.append_assoc, ← List.append_nil (names ++ (v ++ u))]
        have hleaf : ∀ x : Member, x.isGroup = false → x ≠ .group w.here.group := by
          rintro x hx rfl
          cases hx
        exact .intro ((htidy.off_sequence hg.built hsequence hmem).mono
          (fun x hx => .inl (hother x (hleaf x hx)).1) fun x hx => (hother x (hleaf x hx)).2)
          hlevel' (.complete hsequence rfl hrest)
      · rw [if_neg fun hyes => hrest (hlast.1 hyes), List.append_assoc]
        refine .intro (htidy.off_sequence hg.built hsequence hmem) hlevel
          (.sequence hsequence ?_ hafter hopen ?_ ?_)
        · rw [hmembers]
          simp
        · intro hfalse
          cases hfalse
        · intro _
          exact ⟨hrest, hcountedAfter⟩

/-! ## All groups -/

/-- A member without occurrences that must occur is missing. -/
theorem Measures.min_pos (h : Measures s root w.counts w.ceilings m least greatest u)
    (hs : s.Built) (hzero : w.count m = 0) (hempty : s.isEmptiable m = false) :
    w.reach m < (s.occurs m).min.toNat := by
  have hceiling := h.ceiling_eq_zero hzero
  have hreach : w.reach m = 0 := by
    rw [reach, hceiling, show w.counts.count m = 0 from hzero]
    rfl
  rw [hreach]
  refine Nat.pos_of_ne_zero fun hmin => ?_
  rw [hs.isEmptiable_of_min hmin] at hempty
  cases hempty

/-- A walk that leaves a member comes to the next one, unless the member must occur in a sequence in
which nothing has matched. -/
theorem AtEnd.closes_or (hg : s.IsOrderly root) (htidy : Tidy s w.counts w.ceilings (some m))
    (h : AtEnd s root w.counts w.ceilings m w.here outer names)
    (hexcused : (closeItem s outer m w).1 = some true →
      s.isEmptiable m = true ∨ (s.occurs m).min.toNat ≤ w.reach m) :
    Closes s root names (closeItem s outer m w) ∨
      ((s.group w.here.group).compositor = .sequence ∧ w.here.matched = false ∧ w.count m = 0 ∧
        s.isEmptiable m = false ∧ w.reach m < (s.occurs m).min.toNat ∧
        Level s root w.counts w.ceilings w.here.group outer names) := by
  have hmember := h
  cases hmember with
  | @intro names u v least greatest hlevel hopen hsuspended hmeasure hending =>
    cases hcompositor : (s.group w.here.group).compositor with
    | all => exact absurd hcompositor (hg.compositor _ hlevel.contains)
    | choice =>
        rw [closeItem_choice hcompositor] at hexcused ⊢
        exact .inl (AtEnd.closes_choice (w := { w with outer }) hg htidy h hcompositor
          fun hmissing => hexcused (congrArg some hmissing))
    | sequence =>
      by_cases hcounted : w.here.matched = true ∨ 0 < w.count m
      · rw [closeItem_counted hcompositor hcounted] at hexcused ⊢
        exact .inl (AtEnd.closes_sequence (w := { w with outer }) hg htidy h hcompositor hcounted
          fun hmissing => hexcused (congrArg some hmissing))
      have hunmatched : w.here.matched = false := by
        by_contra hno
        exact hcounted (.inl (by simpa using hno))
      have hzero : w.count m = 0 := by
        by_contra hno
        exact hcounted (.inr (Nat.pos_of_ne_zero hno))
      cases hsuspended with
      | choice hchoice =>
          rw [hcompositor] at hchoice
          cases hchoice
      | @sequence done _ _ hmembers hprogress hdone _ =>
        obtain ⟨rfl, hempties⟩ := hprogress.eq_nil (hdone hunmatched)
        rw [hmeasure.eq_nil hzero, List.append_nil]
        cases hempty : s.isEmptiable m with
        | true =>
            rw [closeItem_emptiable hcompositor hunmatched hzero hempty]
            refine .inl (.intro (htidy.off hzero) hlevel (.sequence hcompositor ?_
              (hprogress.skip (hdone hunmatched) hzero hempty) hopen (fun _ x hx => ?_) ?_))
            · rw [hmembers]
              simp
            · rcases List.mem_append.1 hx with hx | hx
              · exact hdone hunmatched x hx
              · rw [List.mem_singleton.1 hx]
                exact hzero
            · intro hmatched
              rw [show w.here.matched = true from hmatched] at hunmatched
              cases hunmatched
        | false =>
            refine .inr ⟨rfl, hunmatched, hzero, rfl, ?_, ?_⟩
            · exact hmeasure.min_pos hg.built hzero hempty
            · rw [List.append_nil]
              exact hlevel

/-- A walk that leaves a member comes to the next one, or to its end. A sequence in which nothing
has matched is left with its first member that must occur, and so on outwards. -/
theorem AtEnd.closes (hg : s.IsOrderly root) :
    ∀ {outer : List Frame} {m : Member} {w : Walk} {names : List QName},
      Tidy s w.counts w.ceilings (some m) →
      AtEnd s root w.counts w.ceilings m w.here outer names →
      ((closeItem s outer m w).1 = some true →
        s.isEmptiable m = true ∨ (s.occurs m).min.toNat ≤ w.reach m) →
      Closes s root names (closeItem s outer m w) := by
  intro outer
  induction outer with
  | nil =>
      intro m w names htidy h hexcused
      rcases h.closes_or hg htidy hexcused with hcloses |
        ⟨hsequence, hunmatched, hzero, hempty, hless, hlevel⟩
      · exact hcloses
      rw [closeItem_unmatched hsequence hunmatched hzero hempty] at hexcused ⊢
      generalize hhere : w.here.group = here at hlevel
      cases hlevel with
      | root hmeasure _ =>
        have hmember : w.hereMember = .group root := congrArg Member.group hhere
        dsimp only at hexcused ⊢
        by_cases hmin : (s.group root).occurs.min.toNat ≤ w.reach w.hereMember
        · rw [if_pos hmin]
          rw [hmember] at hmin
          exact ⟨hhere, ⟨_, _, hmeasure⟩, .inl hmin⟩
        · rw [hhere, if_neg hmin] at hexcused
          rcases hexcused rfl with hyes | hle
          · rw [hempty] at hyes
            cases hyes
          · omega
  | cons f outer ih =>
      intro m w names htidy h hexcused
      rcases h.closes_or hg htidy hexcused with hcloses |
        ⟨hsequence, hunmatched, hzero, hempty, hless, hlevel⟩
      · exact hcloses
      rw [closeItem_unmatched hsequence hunmatched hzero hempty] at hexcused ⊢
      refine ih (w := { w with here := f, outer := f :: outer }) ((htidy.off hzero).on _)
        (hlevel.atEnd hg) fun hmissing => ?_
      rcases hexcused hmissing with hyes | hle
      · rw [hempty] at hyes
        cases hyes
      · omega

end Conform
