import Conform.Proofs.Model.Attribution
import Conform.Proofs.Model.Closing
/-!
# Contents without issues are words

A walk that reports nothing has at every child cut the children so far into repetitions of the
groups around it. At its end they are a word of the root group.
-/

namespace Conform

namespace Walk

/-- A walk that stands on a leaf, behind the children `names`. -/
inductive OnLeaf (s : Schema) (root : GroupId) (w : Walk) : List QName → Prop
  | intro {m : Member} {names u v : List QName} : w.current = some m → m.isGroup = false →
      Tidy s w.counts w.ceilings (some m) →
      Level s root w.counts w.ceilings w.here.group w.outer names →
      IsOpen s w.counts w.ceilings w.here.group →
      Suspended s root w.counts w.ceilings m w.here v →
      Measures s root w.counts w.ceilings m (w.count m) (w.count m) u →
      ((∀ n ∈ (s.occurs m).max, w.count m < n.toNat) ∨
        (s.group w.here.group).compositor = .choice ∧ (s.occurs m).isAmbiguous = true) →
      OnLeaf s root w (names ++ v ++ u)

/-- Where a step without a violation leads to. -/
def Follows (s : Schema) (root : GroupId) (names : List QName) : Move → Prop
  | .again p => p.violations = [] → Cursor s root p.walk names
  | .placed p => p.violations = [] → OnLeaf s root p.walk names
  | .ended p => p.violations = [] → RootEnds s root p.walk names
  | .failed _ _ => True

end Walk

open Walk

variable {s : Schema} {root g : GroupId} {counts ceilings counts' ceilings' : Tally} {m : Member}
  {w : Walk} {f : Frame} {outer : List Frame} {done : List Member} {names u v : List QName}
  {least greatest : Nat} {last : Option Member} {violations : List Violation}

/-! ## Leaving groups -/

/-- A group that a walk leaves. -/
theorem Level.closes (hg : s.IsOrderly root) (htidy : Tidy s w.counts w.ceilings none)
    (h : Level s root w.counts w.ceilings w.here.group w.outer names)
    (hexcused : (w.closeGroup s).1 = some true → s.isEmptiable w.hereMember = true ∨
      (s.occurs w.hereMember).min.toNat ≤ w.reach w.hereMember)
    (henough : (s.occurs w.hereMember).min.toNat ≤ w.reach w.hereMember ∨
      s.Once (s.loosened root) w.hereMember [] ∨
      (s.group w.here.group).compositor = .choice) :
    Closes s root names (w.closeGroup s) := by
  unfold closeGroup at hexcused ⊢
  unfold hereMember at hexcused henough ⊢
  generalize hhere : w.here.group = here at h hexcused henough ⊢
  generalize houter : w.outer = outer at h hexcused ⊢
  cases h with
  | root hmeasure _ => exact ⟨hhere, ⟨_, _, hmeasure⟩, henough⟩
  | nested hlevel hopen hsuspended hmeasure hfits =>
      have hlevel' := Level.nested hlevel hopen hsuspended hmeasure hfits
      exact (hlevel'.atEnd hg).closes hg (htidy.on _) hexcused

theorem Walk.Closes.follows {r : Option Bool × Walk} (h : Closes s root names r) :
    Follows s root names (Passage.afterClose ⟨w, last, violations⟩ r) := by
  obtain ⟨missing, w'⟩ := r
  cases missing with
  | none => exact fun _ => h
  | some missing => exact fun _ => h

/-- A group that has reached its maximum is left. -/
theorem Walk.Cursor.follows_over (hg : s.IsOrderly root) (h : Cursor s root w names)
    (hover : w.isGroupOver s = true) :
    Follows s root names (Passage.step s ⟨w, last, violations⟩) := by
  rw [Passage.step_of_over hover]
  cases h with
  | @intro names v htidy hlevel hbetween =>
    have hclosed : ¬IsOpen s w.counts w.ceilings w.here.group := by
      rw [← isGroupOver_eq_false_iff, hover]
      nofun
    have hnil : v = [] := by
      cases hbetween with
      | choice => rfl
      | sequence _ _ _ hopen => exact absurd hopen hclosed
      | complete => rfl
    subst hnil
    rw [List.append_nil]
    obtain ⟨n, hn, hle⟩ := Occurs.isOver_iff.1 hover
    have hmin : (s.occurs w.hereMember).min.toNat ≤ w.reach w.hereMember :=
      (hg.built.min_le_max w.hereMember n hn).trans hle
    exact (hlevel.closes hg htidy (fun _ => .inr hmin) (.inl hmin)).follows

/-! ## Going on in a group -/

/-- The next member of a group is looked at. -/
theorem Between.suspend {rest : List Member} (h : Between s root counts ceilings f v)
    (hs : s.Built) (hrest : f.rest = m :: rest)
    (hsame : ∀ x, x ≠ m → counts'.count x = counts.count x ∧
      ceilings'.count x = ceilings.count x) :
    Suspended s root counts' ceilings' m ⟨f.group, rest, f.matched⟩ v := by
  cases h with
  | choice hchoice hunmatched hmem =>
      rw [hrest] at hmem
      refine .choice hchoice (hmem m (List.mem_cons_self ..))
        (fun x hx => hmem x (List.mem_cons_of_mem _ hx)) fun hmatched => ?_
      rw [show f.matched = true from hmatched] at hunmatched
      cases hunmatched
  | @sequence done _ hsequence hmembers hprogress _ hunmatched hmatched =>
      rw [hrest] at hmembers
      have hdone : ∀ x ∈ done, counts'.count x = counts.count x ∧
          ceilings'.count x = ceilings.count x := by
        intro x hx
        have hnodup := hs.forest.nodup f.group
        rw [hmembers] at hnodup
        refine hsame x ?_
        rintro rfl
        exact (List.disjoint_of_nodup_append hnodup) hx (by simp)
      refine .sequence hsequence hmembers (hprogress.congr hdone) (fun hfalse x hx => ?_)
        fun htrue => .inr ?_
      · rw [(hdone x hx).1]
        exact hunmatched hfalse x hx
      · obtain ⟨-, x, hx, hpos⟩ := hmatched htrue
        refine ⟨x, hx, ?_⟩
        rw [(hdone x hx).1]
        exact hpos
  | complete _ _ hnil =>
      rw [hrest] at hnil
      cases hnil

theorem Between.mem {rest : List Member} (h : Between s root counts ceilings f v)
    (hrest : f.rest = m :: rest) : m ∈ (s.group f.group).members := by
  cases h with
  | choice _ _ hmem =>
      rw [hrest] at hmem
      exact hmem m (List.mem_cons_self ..)
  | sequence _ hmembers =>
      rw [hmembers, hrest]
      simp
  | complete _ _ hnil =>
      rw [hrest] at hnil
      cases hnil

/-- A group is gone through from its first member on. -/
theorem Between.first (hg : s.IsOrderly root) (hin : s.Contains root (.group g)) (v : Version)
    (hopen : IsOpen s counts ceilings g) :
    Between s root counts ceilings ⟨g, items s v g, false⟩ [] := by
  have hitems : items s v g = (s.group g).members :=
    items_of_ne_all (hg.compositor g hin) (hg.max_ne_zero _ hin)
  cases hcompositor : (s.group g).compositor with
  | all => exact absurd hcompositor (hg.compositor g hin)
  | choice =>
      refine .choice hcompositor rfl fun x hx => ?_
      rw [← hitems]
      exact hx
  | sequence =>
      refine .sequence hcompositor ?_ .nil hopen (fun _ x hx => ?_) nofun
      · exact hitems.symm
      · cases hx

theorem IsOpen.zero (hg : s.IsOrderly root) (hin : s.Contains root (.group g))
    (hcount : counts.count (.group g) = 0) (hceiling : ceilings.count (.group g) = 0) :
    IsOpen s counts ceilings g := by
  intro n hn
  rw [hcount, hceiling]
  exact hg.max_pos hin n hn

/-- A group inside the innermost one is entered. -/
theorem Walk.Cursor.follows_enter {sub : GroupId} {rest : List Member} (hg : s.IsOrderly root)
    (h : Cursor s root w names) (hopen : IsOpen s w.counts w.ceilings w.here.group)
    (hrest : w.here.rest = .group sub :: rest) :
    Follows s root names (Passage.step s ⟨w, last, violations⟩) := by
  cases h with
  | @intro names v htidy hlevel hbetween =>
    have hin := hlevel.contains
    have hmem := hbetween.mem hrest
    have hnext : w.nextItem s =
        (some (.group sub), { w with here := ⟨w.here.group, rest, w.here.matched⟩ }) := by
      rw [nextItem_of_ne_all (hg.compositor _ hin), hrest]
    rw [Passage.step_of_group (isGroupOver_eq_false_iff.2 hopen) hnext]
    unfold Passage.enterGroup enter
    split
    · exact trivial
    rename_i w' hw'
    split at hw'
    · cases hw'
    cases hw'
    intro _
    dsimp only
    have hsame : ∀ x, x ≠ .group sub → (w.counts.set (.group sub) 0).count x = w.counts.count x ∧
        (w.ceilings.set (.group sub) 0).count x = w.ceilings.count x := by
      intro x hx
      simp [hx]
    have hcount : (w.counts.set (.group sub) 0).count (.group sub) = 0 := by simp
    have hceiling : (w.ceilings.set (.group sub) 0).count (.group sub) = 0 := by simp
    have hhere := hsame (.group w.here.group) (hg.built.forest.ne_of_mem hmem)
    have hnested : Level s root (w.counts.set (.group sub) 0) (w.ceilings.set (.group sub) 0) sub
        (⟨w.here.group, rest, w.here.matched⟩ :: w.outer) (names ++ v ++ []) :=
      .nested (hlevel.keep hg.built fun x hx => hsame x fun heq => hx (heq ▸ hmem))
        (hopen.congr hhere.1 hhere.2) (hbetween.suspend hg.built hrest hsame)
        (.zero hcount hceiling) (.zero hcount)
    rw [← List.append_nil (names ++ v), ← List.append_nil (names ++ v ++ [])]
    refine .intro (htidy.mono (fun x hx => .inl (hsame x ?_).1) fun x hx => (hsame x ?_).2) hnested
      (.first hg (hin.member hmem) w.version (.zero hg (hin.member hmem) hcount hceiling))
    all_goals
      rintro rfl
      cases hx

/-- A walk that comes to a leaf. -/
theorem Walk.Cursor.onLeaf {rest : List Member} (hg : s.IsOrderly root) (h : Cursor s root w names)
    (hopen : IsOpen s w.counts w.ceilings w.here.group) (hrest : w.here.rest = m :: rest)
    (hleaf : m.isGroup = false) (hsame : ∀ x, x ≠ m → counts'.count x = w.counts.count x)
    (hzero : counts'.count m = 0) : OnLeaf s root ⟨w.root, w.version,
      ⟨w.here.group, rest, w.here.matched⟩, w.outer, counts', w.ceilings, some m⟩ names := by
  cases h with
  | @intro names v htidy hlevel hbetween =>
    have hmem := hbetween.mem hrest
    have hne : Member.group w.here.group ≠ m := by
      rintro rfl
      cases hleaf
    rw [← List.append_nil (names ++ v)]
    refine .intro (m := m) rfl hleaf ((htidy.on m).mono (fun x _ => ?_) fun _ _ => rfl) ?_
      (hopen.congr (hsame _ hne) rfl)
      (hbetween.suspend hg.built hrest fun x hx => ⟨hsame x hx, rfl⟩) ?_ (.inl fun n hn => ?_)
    · by_cases hx : x = m
      · exact .inr (hx ▸ hzero)
      · exact .inl (hsame x hx)
    · exact hlevel.keep hg.built fun x hx => ⟨hsame x fun heq => hx (heq ▸ hmem), rfl⟩
    · show Measures s root counts' w.ceilings m (counts'.count m) (counts'.count m) []
      rw [hzero]
      exact .zero hzero (htidy.ceiling_eq_zero m hleaf)
    · show counts'.count m < n.toNat
      rw [hzero]
      exact hg.max_pos (hlevel.contains.member hmem) n hn

theorem Walk.Cursor.follows_place {rest : List Member} (hg : s.IsOrderly root)
    (h : Cursor s root w names) (hopen : IsOpen s w.counts w.ceilings w.here.group)
    (hrest : w.here.rest = m :: rest) (hleaf : m.isGroup = false) :
    Follows s root names (Passage.step s ⟨w, last, violations⟩) := by
  have hcursor := h
  cases hcursor with
  | @intro names v htidy hlevel hbetween =>
    have hin := hlevel.contains
    have hnext : w.nextItem s =
        (some m, { w with here := ⟨w.here.group, rest, w.here.matched⟩ }) := by
      rw [nextItem_of_ne_all (hg.compositor _ hin), hrest]
    rw [Passage.step_of_leaf (isGroupOver_eq_false_iff.2 hopen) hnext hleaf]
    unfold Passage.place
    dsimp only
    cases hcompositor : (s.group w.here.group).compositor with
    | all => exact absurd hcompositor (hg.compositor _ hin)
    | sequence =>
        rw [if_pos rfl]
        intro _
        refine h.onLeaf hg hopen hrest hleaf (fun x hx => ?_) ?_
        · simp [hx]
        · simp
    | choice =>
        rw [if_neg (by decide)]
        intro _
        exact h.onLeaf hg hopen hrest hleaf (fun _ _ => rfl)
          (htidy.count_eq_zero _ m hcompositor (hbetween.mem hrest) hleaf nofun)

/-! ## The end of a group -/

/-- A choice expects all its leaves. -/
theorem Walk.expected_choice (hs : s.Built)
    (hchoice : (s.group w.here.group).compositor = .choice) :
    w.expected s = s.leaves w.here.group := by
  rw [hs.leaves_eq]
  unfold expected
  have hall : ((s.group w.here.group).members.filter fun m =>
      (s.group w.here.group).compositor = .choice || w.count m < (s.occurs m).min.toNat) =
        (s.group w.here.group).members := by
    rw [List.filter_eq_self]
    intro x _
    simp [hchoice]
  exact congrArg (List.flatMap _) hall

/-- A group in which nothing has matched is left. What is not reported is not missing. -/
theorem Walk.Cursor.follows_unmatched (hg : s.IsOrderly root) (h : Cursor s root w names)
    (hrest : w.here.rest = []) (hunmatched : w.here.matched = false) :
    Follows s root names (Passage.leaveUnmatched s ⟨w, last, violations⟩) := by
  cases h with
  | @intro names v htidy hlevel hbetween =>
    have hin := hlevel.contains
    have hne := hg.compositor _ hin
    obtain ⟨hnil, hempty, henough⟩ : v = [] ∧
        (w.expected s = [] → s.isEmptiable w.hereMember = true) ∧
        (s.Once (s.loosened root) w.hereMember [] ∨
          (s.group w.here.group).compositor = .choice) := by
      cases hbetween with
      | choice hchoice =>
          refine ⟨rfl, fun hexpected => ?_, .inr hchoice⟩
          rw [expected_choice hg.built hchoice] at hexpected
          exact hg.built.isEmptiable_of_leaves hg.max_ne_zero (w.here.group.index + 1) _
            (Nat.lt_succ_self _) hin hexpected
      | @sequence done _ hsequence hmembers hprogress _ hzero _ =>
          rw [hrest, List.append_nil] at hmembers
          obtain ⟨hnil, hempties⟩ := hprogress.eq_nil (hzero hunmatched)
          rw [← hmembers] at hempties
          refine ⟨hnil, fun _ => hg.built.isEmptiable_of_forall hempties, .inl ?_⟩
          exact .sequence hsequence (.empty fun x hx =>
            hg.built.words_nil hg.gapless (hin.member hx) (hempties x hx))
      | complete _ hmatched =>
          rw [hunmatched] at hmatched
          cases hmatched
    subst hnil
    rw [List.append_nil]
    have hcloses : (w.expected s).isEmpty = true ∨ (w.closeGroup s).1 ≠ some true →
        Closes s root names (w.closeGroup s) := by
      intro hquiet
      refine hlevel.closes hg htidy (fun hmissing => ?_) (.inr henough)
      rcases hquiet with hexpected | hno
      · exact .inl (hempty (List.isEmpty_iff.1 hexpected))
      · exact absurd hmissing hno
    unfold Passage.leaveUnmatched
    simp only [hne, decide_false, Bool.false_and, Bool.false_eq_true, if_false]
    generalize w.closeGroup s = r at hcloses
    obtain ⟨missing, w'⟩ := r
    cases missing with
    | none => exact fun _ => hcloses (.inr nofun)
    | some missing =>
        dsimp only
        split
        · intro hviolations
          simp [Passage.report] at hviolations
        · rename_i hquiet
          intro _
          refine hcloses ?_
          cases missing with
          | false => exact .inr nofun
          | true => exact .inl (by simpa using hquiet)

/-- A group comes to its end. -/
theorem Walk.Cursor.follows_end (hg : s.IsOrderly root) (h : Cursor s root w names)
    (hopen : IsOpen s w.counts w.ceilings w.here.group) (hrest : w.here.rest = []) :
    Follows s root names (Passage.step s ⟨w, last, violations⟩) := by
  have hcursor := h
  cases hcursor with
  | @intro names v htidy hlevel hbetween =>
    have hin := hlevel.contains
    have hne := hg.compositor _ hin
    have hnext : w.nextItem s =
        (none, { w with here := ⟨w.here.group, [], w.here.matched⟩ }) := by
      rw [nextItem_of_ne_all hne, hrest]
    have hsame : ({ w with here := ⟨w.here.group, [], w.here.matched⟩ } : Walk) = w := by
      rw [← hrest]
    rw [hsame] at hnext
    rw [Passage.step_of_none (isGroupOver_eq_false_iff.2 hopen) hnext]
    unfold Passage.leaveEnd
    dsimp only
    cases hmatched : w.here.matched with
    | false => exact h.follows_unmatched hg hrest hmatched
    | true =>
        simp only [Bool.not_true, Bool.false_eq_true, if_false, hne]
        intro _
        cases hbetween with
        | choice _ hunmatched =>
            rw [hmatched] at hunmatched
            cases hunmatched
        | sequence _ _ _ _ _ hmore => exact absurd hrest (hmore hmatched).1
        | complete =>
            exact .intro htidy hlevel (.first hg hin w.version hopen)

/-! ## Steps and runs -/

/-- Whatever is looked for next, the children so far stay cut at the groups around the walk. -/
theorem Walk.Cursor.step (hg : s.IsOrderly root) (h : Cursor s root w names) :
    Follows s root names (Passage.step s ⟨w, last, violations⟩) := by
  cases hover : w.isGroupOver s with
  | true => exact h.follows_over hg hover
  | false =>
      have hopen := isGroupOver_eq_false_iff.1 hover
      cases hrest : w.here.rest with
      | nil => exact h.follows_end hg hopen hrest
      | cons m rest =>
          cases m with
          | group sub => exact h.follows_enter hg hopen hrest
          | element e => exact h.follows_place hg hopen hrest rfl
          | wildcard x => exact h.follows_place hg hopen hrest rfl

/-- No violation is taken back. -/
def Keeps (violations : List Violation) : Move → Prop
  | .again p => p.violations = [] → violations = []
  | .placed p => p.violations = [] → violations = []
  | .ended p => p.violations = [] → violations = []
  | .failed _ _ => True

theorem Passage.afterClose_keeps (p : Passage) (r : Option Bool × Walk) :
    Keeps p.violations (p.afterClose r) := by
  obtain ⟨missing, w⟩ := r
  cases missing with
  | none => exact id
  | some missing => exact id

theorem Passage.report_ne_nil {p : Passage} {v : Violation} {q : Prop}
    (h : (p.report v).violations = []) : q := by
  simp [report] at h

theorem Passage.leaveUnmatched_keeps (p : Passage) : Keeps p.violations (p.leaveUnmatched s) := by
  unfold leaveUnmatched
  dsimp only
  split
  · exact id
  · generalize Walk.expected s _ = expected
    split
    · exact report_ne_nil
    · exact id

theorem Passage.leaveAll_keeps (p : Passage) : Keeps p.violations (p.leaveAll s) := by
  unfold leaveAll
  dsimp only
  split
  · split
    · split
      · exact report_ne_nil
      · exact id
    · split
      · exact report_ne_nil
      · exact id
  · split
    · exact id
    · split
      · exact id
      · exact afterClose_keeps _ _

theorem Passage.step_keeps (p : Passage) : Keeps p.violations (p.step s) := by
  unfold Passage.step
  split
  · exact afterClose_keeps _ _
  dsimp only
  split
  · unfold enterGroup
    split
    · exact trivial
    · exact id
  · unfold place
    dsimp only
    split <;> exact id
  · unfold leaveEnd
    split
    · exact leaveUnmatched_keeps _
    · split
      · exact leaveAll_keeps _
      · exact id

/-- What holds of the passage that a move leads to if there is no violation. -/
def Move.Holds (again placed ended : Passage → Prop) : Move → Prop
  | .again p => p.violations = [] → again p
  | .placed p => p.violations = [] → placed p
  | .ended p => p.violations = [] → ended p
  | .failed _ _ => True

/-- What single steps without a violation keep, a run keeps. -/
theorem Passage.run_holds {again placed ended : Passage → Prop}
    (hstep : ∀ p, p.violations = [] → again p → (p.step s).Holds again placed ended) :
    ∀ {n : Nat} {p : Passage}, (p.violations = [] → again p) →
      (p.run s n).Holds again placed ended := by
  intro n
  induction n with
  | zero => exact fun _ => trivial
  | succ n ih =>
      intro p h
      have hkeeps := p.step_keeps (s := s)
      have hmove : p.violations = [] → (p.step s).Holds again placed ended :=
        fun hnone => hstep p hnone (h hnone)
      unfold Passage.run
      generalize p.step s = move at hkeeps hmove
      cases move with
      | again p' => exact ih fun hnone => hmove (hkeeps hnone) hnone
      | placed p' => exact fun hnone => hmove (hkeeps hnone) hnone
      | ended p' => exact fun hnone => hmove (hkeeps hnone) hnone
      | failed failure p' => exact trivial

theorem Walk.follows_iff {move : Move} : Follows s root names move ↔ move.Holds
    (Cursor s root ·.walk names) (OnLeaf s root ·.walk names) (RootEnds s root ·.walk names) := by
  cases move <;> exact Iff.rfl

/-- A passage without a violation comes to a leaf or to the end of the root group. -/
theorem Passage.run_follows (hg : s.IsOrderly root) {n : Nat} {p : Passage}
    (h : p.violations = [] → Cursor s root p.walk names) : Follows s root names (p.run s n) :=
  follows_iff.2 (run_holds (fun _ _ hcursor => follows_iff.1 (hcursor.step hg)) h)

/-! ## The end of a walk -/

/-- What a walk that ends has passed if it reports nothing. -/
theorem Walk.finish_eq_nil {p : Passage} (h : (finish s p).1 = []) : p.violations = [] ∧
    ((s.group p.walk.here.group).occurs.isMissing (p.walk.reach p.walk.hereMember) = true ∧
        p.walk.isIncomplete s p.last = false ∨
      (s.group p.walk.here.group).occurs.isMissing (p.walk.reach p.walk.hereMember) = false ∧
        (s.group p.walk.here.group).occurs.isExceeded (p.walk.count p.walk.hereMember) = false) := by
  unfold finish at h
  dsimp only at h
  split at h
  · rename_i hmissing
    split at h
    · simp at h
    · rename_i hcomplete
      exact ⟨h, .inl ⟨hmissing, Bool.eq_false_iff.2 hcomplete⟩⟩
  · rename_i hmissing
    split at h
    · simp at h
    · rename_i hexceeded
      exact ⟨h, .inr ⟨Bool.eq_false_iff.2 hmissing, Bool.eq_false_iff.2 hexceeded⟩⟩

/-- The children are a word of the root group if nothing is reported. -/
theorem Walk.RootEnds.words {p : Passage} (h : RootEnds s root p.walk names)
    (hg : s.IsOrderly root) (hnone : (finish s p).1 = []) :
    s.Words (s.loosened root) (.group root) names := by
  obtain ⟨least, greatest, hmeasure⟩ := h.measures
  have hreach := hmeasure.reach_le
  have hcount : p.walk.count (.group root) ≤ p.walk.reach (.group root) := Nat.le_max_left _ _
  have hleast : least ≤ p.walk.count (.group root) := hmeasure.least_le
  have hfinish := (finish_eq_nil hnone).2
  rw [hereMember, h.here] at hfinish
  rcases hfinish with ⟨hmissing, hcomplete⟩ | ⟨hmissing, hexceeded⟩
  · have hless : p.walk.reach (.group root) < (s.group root).occurs.min.toNat := by
      simpa [Occurs.isMissing] using hmissing
    have honce : s.Once (s.loosened root) (.group root) [] := by
      rcases h.enough with hle | honce | hyes
      · omega
      · exact honce
      · rw [isIncomplete_choice (h.here ▸ hyes)] at hcomplete
        cases hcomplete
    obtain ⟨greatest', hmeasure', -, hmin⟩ :=
      hmeasure.enough (.inl ((hg.built.widened_loosened root).words_of_once_nil honce))
    refine hmeasure'.words hg.built (fun n hn => ?_) hmin
    have hbounds := hg.built.min_le_max (.group root) n (Components.mem_max_of_loosened hn)
    rw [show s.occurs (.group root) = (s.group root).occurs from rfl] at hbounds
    omega
  · have hmin : (s.group root).occurs.min.toNat ≤ p.walk.reach (.group root) := by
      simpa [Occurs.isMissing] using hmissing
    refine hmeasure.words hg.built (fun n hn => ?_) (hmin.trans hreach)
    rw [Components.loosened_group, Option.mem_def] at hn
    have hle : p.walk.count (.group root) ≤ n.toNat := by
      simpa [Occurs.isExceeded, hn] using hexceeded
    omega

/-- A walk at a leaf or at its end, behind the children `names`. -/
def Walk.Cuts (s : Schema) (root : GroupId) (w : Walk) (names : List QName) : Prop :=
  OnLeaf s root w names ∨
    w.current = none ∧ s.Words (s.loosened root) (.group root) names

theorem Walk.Follows.cuts {move : Move} {w' : Walk} (h : Follows s root names move)
    (hg : s.IsOrderly root) (hsettle : settle s move = (.ok [], w')) : Cuts s root w' names := by
  cases move with
  | again p => cases hsettle
  | placed p =>
      obtain ⟨hnone, rfl⟩ := Prod.mk.inj hsettle
      exact .inl (h (Except.ok.inj hnone))
  | ended p =>
      obtain ⟨hnone, rfl⟩ := Prod.mk.inj hsettle
      have hnone := Except.ok.inj hnone
      refine .inr ⟨?_, (h (finish_eq_nil hnone).1).words hg hnone⟩
      unfold finish
      dsimp only
      split
      · rfl
      · split <;> rfl
  | failed failure p => cases hsettle

/-- A walk moves on from a leaf. -/
theorem AtEnd.cuts {w' : Walk} (hg : s.IsOrderly root)
    (htidy : Tidy s w.counts w.ceilings (some m))
    (h : AtEnd s root w.counts w.ceilings m w.here w.outer names)
    (hmove : w.moveOn s m = (.ok [], w')) : Cuts s root w' names := by
  have hcloses : (w.closeLeaf s m).1 ≠ some true → Closes s root names (w.closeLeaf s m) :=
    fun hquiet => h.closes hg htidy fun hmissing => absurd hmissing hquiet
  obtain ⟨⟨missing, w₁⟩, hclose⟩ : ∃ r, w.closeLeaf s m = r := ⟨_, rfl⟩
  rw [hclose] at hcloses
  cases missing with
  | none =>
      rw [moveOn_of_none hclose] at hmove
      have hends : Follows s root names (.ended ⟨w₁, none, []⟩) := fun _ => hcloses nofun
      exact hends.cuts hg hmove
  | some missing =>
      rw [moveOn_of_some hclose] at hmove
      refine Follows.cuts (Passage.run_follows hg fun hnone => ?_) hg hmove
      cases missing with
      | false => exact hcloses nofun
      | true => cases hnone

/-! ## Children -/

/-- One child more for a leaf. -/
theorem Suspended.take (h : Suspended s root counts ceilings m f v) (hs : s.Built)
    (hleaf : m.isGroup = false) :
    Suspended s root (counts.add m 1) ceilings m ⟨f.group, f.rest, true⟩ v := by
  have hpos : 0 < (counts.add m 1).count m := by simp
  cases h with
  | choice hchoice hmem hrest => exact .choice hchoice hmem hrest fun _ => ⟨hleaf, hpos⟩
  | @sequence done _ hsequence hmembers hprogress =>
      have hnodup := hs.forest.nodup f.group
      rw [hmembers] at hnodup
      refine .sequence hsequence hmembers (hprogress.congr fun x hx => ?_) nofun
        fun _ => .inl ⟨hleaf, hpos⟩
      have hxm : x ≠ m := by
        rintro rfl
        exact (List.disjoint_of_nodup_append hnodup) hx (by simp)
      simp [hxm]

theorem Measures.take {n : QName} {k : Nat} (h : Measures s root counts ceilings m k k u)
    (hn : s.passes m n = true) (hceiling : ceilings.count m = 0) :
    Measures s root (counts.add m 1) ceilings m (k + 1) (k + 1) (u ++ [n]) := by
  have hlow := h.least_le
  have hhigh := h.le_greatest
  have hcount : (counts.add m 1).count m = k + 1 := by
    rw [Tally.count_add, if_pos rfl]
    omega
  refine ⟨by omega, by omega, by omega, fun _ => hceiling, fun j hj hj' => ?_⟩
  obtain rfl : j = k + 1 := by omega
  have honce : s.Times (s.loosened root) m 1 [n] := Components.Once.times (.leaf hn)
  exact (h.times k (Nat.le_refl _) (Nat.le_refl _)).append honce

theorem Walk.OnLeaf.take {n : QName} {w' : Walk} (h : OnLeaf s root w names) (hg : s.IsOrderly root)
    (hcurrent : w.current = some m) (hn : s.passes m n = true)
    (hadvance : w.advance s true = (.ok [], w')) : Cuts s root w' (names ++ [n]) := by
  cases h with
  | @intro m' names u v hm hleaf htidy hlevel hopen hsuspended hmeasure hroom =>
    obtain rfl : m' = m := Option.some.inj (hm.symm.trans hcurrent)
    have hin := hlevel.contains
    have hmem := hsuspended.mem
    have hne : Member.group w.here.group ≠ m' := by
      rintro rfl
      cases hleaf
    have hsame : ∀ x, x ≠ m' → (w.counts.add m' 1).count x = w.counts.count x := by
      intro x hx
      simp [hx]
    have hcount : (w.take m').count m' = w.count m' + 1 := by rw [count_take, if_pos rfl]
    have htidy' : Tidy s (w.take m').counts (w.take m').ceilings (some m') := by
      refine ⟨htidy.ceiling_eq_zero, fun g x hchoice hx hxleaf hxm => ?_⟩
      have hxne : x ≠ m' := fun heq => hxm (heq ▸ rfl)
      rw [show (w.take m').counts.count x = w.counts.count x from hsame x hxne]
      exact htidy.count_eq_zero g x hchoice hx hxleaf hxm
    have hlevel' : Level s root (w.take m').counts (w.take m').ceilings (w.take m').here.group
        (w.take m').outer names :=
      hlevel.keep hg.built fun x hx => ⟨hsame x fun heq => hx (heq ▸ hmem), rfl⟩
    have hopen' : IsOpen s (w.take m').counts (w.take m').ceilings (w.take m').here.group :=
      hopen.congr (hsame _ hne) rfl
    have hsuspended' := hsuspended.take hg.built hleaf
    have hmeasure' := hmeasure.take hn (htidy.ceiling_eq_zero m' hleaf)
    rw [← hcount] at hmeasure'
    rw [List.append_assoc]
    by_cases hstay : (w.take m').staysOn s m' = true
    · have hstays : w.advance s true = (.ok [], w.take m') := by
        simp only [advance, hcurrent, hstay, if_true]
      rw [hstays] at hadvance
      cases hadvance
      refine .inl (.intro hcurrent hleaf htidy' hlevel' hopen' hsuspended' hmeasure' ?_)
      unfold staysOn at hstay
      simp only [Bool.and_eq_true, Bool.or_eq_true, Bool.not_eq_true', decide_eq_true_eq] at hstay
      rcases hstay.2 with hroom' | hchoice
      · exact .inl (Occurs.isOver_eq_false_iff.1 hroom')
      · exact .inr hchoice
    · have hmoves : w.advance s true = (w.take m').moveOn s m' := by
        have hcompositor : (s.group (w.take m').here.group).compositor ≠ .all :=
          hg.compositor _ hin
        simp only [advance, hcurrent, hstay, hcompositor, if_true, if_false]
        rfl
      rw [hmoves] at hadvance
      have hending : Ending s root (w.take m').counts w.here.group m' ((w.take m').count m') := by
        refine .of_leaf hg hin hmem hleaf (hroom.imp_left fun hless n hn => ?_)
        have hlt := hless n hn
        rw [show (w.take m').counts.count m' = w.count m' + 1 from hcount]
        omega
      exact AtEnd.cuts hg htidy' (.intro hlevel' hopen' hsuspended' hmeasure' hending) hadvance

theorem Walk.OnLeaf.pass {w' : Walk} (h : OnLeaf s root w names) (hg : s.IsOrderly root)
    (hcurrent : w.current = some m) (hadvance : w.advance s false = (.ok [], w')) :
    Cuts s root w' names := by
  cases h with
  | @intro m' names u v hm hleaf htidy hlevel hopen hsuspended hmeasure hroom =>
    obtain rfl : m' = m := Option.some.inj (hm.symm.trans hcurrent)
    rw [advance_pass hcurrent] at hadvance
    have hending : Ending s root w.counts w.here.group m' (w.count m') :=
      .of_leaf hg hlevel.contains hsuspended.mem hleaf
        (hroom.imp_left fun hless n hn => Nat.le_of_lt (hless n hn))
    exact AtEnd.cuts hg htidy (.intro hlevel hopen hsuspended hmeasure hending) hadvance

theorem Walk.kept_cuts (hg : s.IsOrderly root) : Walk.Kept s (Cuts s root) := by
  constructor
  · intro w w' u m n h hcurrent hn hadvance
    rcases h with honLeaf | ⟨hnone, -⟩
    · exact honLeaf.take hg hcurrent hn hadvance
    · rw [hcurrent] at hnone
      cases hnone
  · intro w w' u m h hcurrent hadvance
    rcases h with honLeaf | ⟨hnone, -⟩
    · exact honLeaf.pass hg hcurrent hadvance
    · rw [hcurrent] at hnone
      cases hnone

/-! ## The start of a walk -/

/-- A group that a walk goes through at the start, before it has met a leaf. -/
inductive Sought (s : Schema) (root : GroupId) : GroupId → List Frame → Prop
  | root : Sought s root root []
  | nested {g : GroupId} {f : Frame} {outer : List Frame} {done : List Member} :
      Sought s root f.group outer → (s.group f.group).members = done ++ .group g :: f.rest →
      (∀ x ∈ done, s.isEmptiable x = true) → f.matched = false → Sought s root g (f :: outer)

theorem Sought.contains (h : Sought s root g outer) : s.Contains root (.group g) := by
  induction h with
  | root => exact .root
  | nested _ hmembers _ _ ih => exact ih.member (by simp [hmembers])

/-- At the start nothing is counted. -/
theorem Suspended.zero (hg : s.IsOrderly root) (hin : s.Contains root (.group f.group))
    (hmembers : (s.group f.group).members = done ++ m :: f.rest)
    (hdone : ∀ x ∈ done, s.isEmptiable x = true) (hmatched : f.matched = false) :
    Suspended s root Tally.zero Tally.zero m f [] := by
  cases hcompositor : (s.group f.group).compositor with
  | all => exact absurd hcompositor (hg.compositor _ hin)
  | choice =>
      refine .choice hcompositor ?_ (fun x hx => ?_) fun htrue => ?_
      · simp [hmembers]
      · simp [hmembers, hx]
      · rw [hmatched] at htrue
        cases htrue
  | sequence =>
      refine .sequence hcompositor hmembers (.idle fun x hx => ⟨rfl, hdone x hx⟩)
        (fun _ _ _ => rfl) fun htrue => ?_
      rw [hmatched] at htrue
      cases htrue

theorem Sought.level (h : Sought s root g outer) (hg : s.IsOrderly root) :
    Level s root Tally.zero Tally.zero g outer [] := by
  induction h with
  | root => exact .root (.zero rfl rfl) (.zero rfl)
  | @nested g f outer _ hsought hmembers hdone hmatched ih =>
      have hlevel : Level s root Tally.zero Tally.zero g (f :: outer) ([] ++ [] ++ []) :=
        .nested ih (.zero hg hsought.contains rfl rfl)
          (.zero hg hsought.contains hmembers hdone hmatched) (.zero rfl rfl) (.zero rfl)
      exact hlevel

/-- The first leaf is looked for. Groups that are passed over can be empty. -/
theorem Walk.seekFirst_cuts (hg : s.IsOrderly root) {root' : GroupId} {v : Version} {w' : Walk} :
    ∀ {fuel : Nat} {f : Frame} {outer : List Frame} {done : List Member},
      seekFirst s fuel ⟨root', v, f, outer, Tally.zero, Tally.zero, none⟩ = (.ok (), w') →
      Sought s root f.group outer → (s.group f.group).members = done ++ f.rest →
      (∀ x ∈ done, s.isEmptiable x = true) → f.matched = false → Cuts s root w' [] := by
  intro fuel
  induction fuel with
  | zero =>
      intro f outer done h
      cases h
  | succ fuel ih =>
      intro f outer done h hsought hmembers hdone hmatched
      have hin := hsought.contains
      have hne := hg.compositor _ hin
      have hmore : ∀ {x : Member} {rest : List Member}, f.rest = x :: rest →
          s.isEmptiable x = true → (s.group f.group).members = (done ++ [x]) ++ rest ∧
            ∀ y ∈ done ++ [x], s.isEmptiable y = true := by
        intro x rest hrest hx
        refine ⟨by simp [hmembers, hrest], fun y hy => ?_⟩
        rcases List.mem_append.1 hy with hy | hy
        · exact hdone y hy
        · rw [List.mem_singleton.1 hy]
          exact hx
      rw [seekFirst, nextItem_of_ne_all hne] at h
      dsimp only at h
      cases hrest : f.rest with
      | nil =>
          rw [hrest] at h hmembers
          rw [List.append_nil] at hmembers
          have hempty : s.isEmptiable (.group f.group) = true :=
            hg.built.isEmptiable_of_forall fun x hx => hdone x (hmembers ▸ hx)
          cases hsought with
          | root =>
              cases h
              exact .inr ⟨rfl, hg.built.words_nil hg.gapless hin hempty⟩
          | @nested _ f' outer' done' hsought' hmembers' hdone' hmatched' =>
              have hbehind : (s.group f'.group).members = (done' ++ [.group f.group]) ++ f'.rest := by
                rw [hmembers']
                simp
              refine ih h hsought' hbehind (fun x hx => ?_) hmatched'
              rcases List.mem_append.1 hx with hx | hx
              · exact hdone' x hx
              · rw [List.mem_singleton.1 hx]
                exact hempty
      | cons x rest =>
          rw [hrest] at h
          have hmem : x ∈ (s.group f.group).members := by simp [hmembers, hrest]
          have honLeaf : x.isGroup = false → w' =
              ⟨root', v, ⟨f.group, rest, f.matched⟩, outer, Tally.zero, Tally.zero, some x⟩ →
              Cuts s root w' [] := by
            rintro hleaf rfl
            have htidy : Tidy s Tally.zero Tally.zero (some x) :=
              ⟨fun _ _ => rfl, fun _ _ _ _ _ _ => rfl⟩
            have hsuspended : Suspended s root Tally.zero Tally.zero x
                ⟨f.group, rest, f.matched⟩ [] :=
              .zero hg hin (hrest ▸ hmembers) hdone hmatched
            have hwalk : OnLeaf s root ⟨root', v, ⟨f.group, rest, f.matched⟩, outer, Tally.zero,
                Tally.zero, some x⟩ ([] ++ [] ++ []) := by
              refine .intro rfl hleaf htidy (hsought.level hg) (.zero hg hin rfl rfl) hsuspended
                (.zero rfl rfl) (.inl fun n hn => ?_)
              exact hg.max_pos (hin.member hmem) n hn
            exact .inl hwalk
          cases x with
          | element e =>
              cases h
              exact honLeaf rfl rfl
          | wildcard y =>
              cases h
              exact honLeaf rfl rfl
          | group sub =>
              dsimp only at h
              split at h
              · rename_i hnone
                have hempty : s.isEmptiable (.group sub) = true := by
                  refine hg.built.isEmptiable_of_forall fun x hx => ?_
                  rw [List.isEmpty_iff.1 hnone] at hx
                  cases hx
                obtain ⟨hmembers', hdone'⟩ := hmore hrest hempty
                exact ih h hsought hmembers' hdone' hmatched
              · unfold enter at h
                split at h
                · cases h
                rename_i w₁ hw₁
                split at hw₁
                · cases hw₁
                cases hw₁
                have hitems : (s.group sub).members = [] ++ items s v sub :=
                  (items_of_ne_all (hg.compositor _ (hin.member hmem))
                    (hg.max_ne_zero _ (hin.member hmem))).symm
                refine ih h (.nested (f := ⟨f.group, rest, f.matched⟩) hsought (hrest ▸ hmembers)
                  hdone hmatched) hitems (fun y hy => ?_) rfl
                cases hy

theorem Walk.start_cuts (hg : s.IsOrderly root) {v : Version}
    (hstart : Walk.start s root v = .ok w) : Cuts s root w [] := by
  unfold Walk.start restart clear at hstart
  dsimp only at hstart
  split at hstart
  · rename_i w' hseek
    cases hstart
    have hitems : (s.group root).members = [] ++ items s v root :=
      (items_of_ne_all (hg.compositor _ .root) (hg.max_ne_zero _ .root)).symm
    refine seekFirst_cuts hg hseek .root hitems (fun x hx => ?_) rfl
    cases hx
  · cases hstart

/-- A content without issues is a word of the group, with the bounds that are kept. -/
theorem Schema.IsOrderly.words (hg : s.IsOrderly root) (h : s.issues root names = .ok []) :
    s.Words (s.loosened root) (.group root) names := by
  obtain ⟨w, hcuts, hended⟩ :=
    Schema.inv_of_issues_eq_nil (start_cuts hg) (kept_cuts hg) h
  rcases hcuts with honLeaf | ⟨-, hwords⟩
  · cases honLeaf with
    | intro hcurrent =>
        rw [hended] at hcurrent
        cases hcurrent
  · exact hwords

end Conform
