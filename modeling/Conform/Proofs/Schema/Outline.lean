import Conform.Proofs.Schema.Traversal
/-!
# The leaves of a group in document order

The outline of a group has all that is nested in it in document order, each with its level, and
leaves out what is in groups that must not occur. The cached leaves are the leaves of the outline. A
deep traversal follows the outline, and stops at the first group on a level that is too deep.
-/

namespace Conform

namespace Schema

/-- A group that is reached from `r` through groups that may occur, and how many levels below `r` it
is nested. -/
inductive Below (s : Schema) (r : GroupId) : Nat → GroupId → Prop
  | member {g : GroupId} : .group g ∈ (s.group r).members → (s.group g).occurs.max ≠ some 0 →
      Below s r 1 g
  | nested {level : Nat} {g sub : GroupId} : Below s r level g → .group sub ∈ (s.group g).members →
      (s.group sub).occurs.max ≠ some 0 → Below s r (level + 1) sub

/-- Members on a level, with all that is nested in them, in document order. A group stands before
what is in it. -/
inductive Outline (s : Schema) : Nat → List Member → List (Nat × Member) → Prop
  | nil {level : Nat} : Outline s level [] []
  | leaf {level : Nat} {m : Member} {rest : List Member} {items : List (Nat × Member)} :
      m.isGroup = false → Outline s level rest items →
      Outline s level (m :: rest) ((level, m) :: items)
  | never {level : Nat} {g : GroupId} {rest : List Member} {items : List (Nat × Member)} :
      (s.group g).occurs.max = some 0 → Outline s level rest items →
      Outline s level (.group g :: rest) items
  | group {level : Nat} {g : GroupId} {rest : List Member} {inner items : List (Nat × Member)} :
      (s.group g).occurs.max ≠ some 0 → Outline s (level + 1) (s.group g).members inner →
      Outline s level rest items →
      Outline s level (.group g :: rest) ((level, .group g) :: (inner ++ items))

/-- The leaves of an outline. -/
def leavesAmong (items : List (Nat × Member)) : List Member :=
  (items.map Prod.snd).filter fun m => !m.isGroup

/-- Every group of an outline is within the bound on the depth of models. -/
def IsShallow (s : Schema) (items : List (Nat × Member)) : Prop :=
  ∀ level g, (level, .group g) ∈ items → level ≤ s.limits.maxModelDepth

variable {s : Schema} {level : Nat} {members : List Member} {items : List (Nat × Member)}

/-- Nested groups come before the groups around them, so there are no more levels than groups. -/
theorem Below.index_add_le {r g : GroupId} (h : s.Below r level g) (hs : s.Built) :
    g.index + level ≤ r.index := by
  induction h with
  | member hg _ => exact hs.forest.index_lt hg
  | nested _ hsub _ ih =>
      have hlt := hs.forest.index_lt hsub
      omega

theorem leavesAmong_append (xs ys : List (Nat × Member)) :
    leavesAmong (xs ++ ys) = leavesAmong xs ++ leavesAmong ys := by
  simp [leavesAmong]

theorem leavesAmong_group (g : GroupId) :
    leavesAmong ((level, .group g) :: items) = leavesAmong items := rfl

theorem leavesAmong_leaf {m : Member} (hm : m.isGroup = false) :
    leavesAmong ((level, m) :: items) = m :: leavesAmong items := by
  simp [leavesAmong, hm]

/-- What has an outline for each member has one. -/
theorem exists_outline_of_nested (h : ∀ sub, .group sub ∈ members →
    ∃ items, s.Outline (level + 1) (s.group sub).members items) :
    ∃ items, s.Outline level members items := by
  induction members with
  | nil => exact ⟨[], .nil⟩
  | cons m rest ih =>
      obtain ⟨items, hitems⟩ := ih fun sub hsub => h sub (List.mem_cons_of_mem _ hsub)
      cases m with
      | element e => exact ⟨_, .leaf rfl hitems⟩
      | wildcard w => exact ⟨_, .leaf rfl hitems⟩
      | group g =>
          by_cases hmax : (s.group g).occurs.max = some 0
          · exact ⟨items, .never hmax hitems⟩
          · obtain ⟨inner, hinner⟩ := h g List.mem_cons_self
            exact ⟨_, .group hmax hinner hitems⟩

theorem Built.exists_outline (hs : s.Built) (g : GroupId) (level : Nat) :
    ∃ items, s.Outline level (s.group g).members items := by
  induction hg : g.index using Nat.strongRecOn generalizing g level with
  | ind i ih =>
      exact exists_outline_of_nested fun sub hsub =>
        ih sub.index (hg ▸ hs.forest.index_lt hsub) sub (level + 1) rfl

namespace Outline

/-- The cached leaves are the leaves of the outline. -/
theorem leaves_eq (h : s.Outline level members items) (hs : s.Built) :
    leavesAmong items = members.flatMap s.leavesIn := by
  induction h with
  | nil => rfl
  | leaf hm _ ih => rw [leavesAmong_leaf hm, ih, List.flatMap_cons, Built.leavesIn_leaf hm]; rfl
  | @never _ g _ _ hmax _ ih =>
      have hin : s.leavesIn (.group g) = [] := if_pos (decide_eq_true hmax)
      rw [ih, List.flatMap_cons, hin]
      rfl
  | @group _ g _ _ _ hmax _ _ ihinner ih =>
      have hin : s.leavesIn (.group g) = s.leaves g := if_neg (by simpa [Occurs.isEmpty] using hmax)
      rw [leavesAmong_group, leavesAmong_append, ihinner, ih, List.flatMap_cons, hin,
        hs.leaves_eq_flatMap]

/-- The members that may occur are in the outline. -/
theorem mem_of_member {g : GroupId} (h : s.Outline level members items)
    (hg : .group g ∈ members) (hmax : (s.group g).occurs.max ≠ some 0) :
    (level, .group g) ∈ items := by
  induction h with
  | nil => cases hg
  | leaf hm _ ih =>
      rcases List.mem_cons.1 hg with rfl | hg
      · cases hm
      · exact List.mem_cons_of_mem _ (ih hg)
  | never hnever _ ih =>
      rcases List.mem_cons.1 hg with heq | hg
      · obtain rfl := Member.group.inj heq
        exact absurd hnever hmax
      · exact ih hg
  | group _ _ _ _ ih =>
      rcases List.mem_cons.1 hg with heq | hg
      · obtain rfl := Member.group.inj heq
        exact List.mem_cons_self
      · exact List.mem_cons_of_mem _ (List.mem_append_right _ (ih hg))

/-- With a group the outline has those nested in it, one level further down. -/
theorem mem_of_nested {k : Nat} {g sub : GroupId} (h : s.Outline level members items)
    (hg : (k, .group g) ∈ items) (hsub : .group sub ∈ (s.group g).members)
    (hmax : (s.group sub).occurs.max ≠ some 0) : (k + 1, .group sub) ∈ items := by
  induction h with
  | nil => cases hg
  | leaf hm _ ih =>
      rcases List.mem_cons.1 hg with heq | hg
      · obtain ⟨-, rfl⟩ := Prod.mk.inj heq
        cases hm
      · exact List.mem_cons_of_mem _ (ih hg)
  | never _ _ ih => exact ih hg
  | group _ hinner _ ihinner ih =>
      rcases List.mem_cons.1 hg with heq | hg
      · obtain ⟨rfl, hmember⟩ := Prod.mk.inj heq
        obtain rfl := Member.group.inj hmember
        exact List.mem_cons_of_mem _ (List.mem_append_left _ (hinner.mem_of_member hsub hmax))
      · refine List.mem_cons_of_mem _ (List.mem_append.2 ?_)
        exact (List.mem_append.1 hg).imp ihinner ih

/-- The groups of an outline are nested below the group whose members it is of. -/
theorem below_of_mem {r : GroupId} (h : s.Outline level members items)
    (hmembers : ∀ g, .group g ∈ members → (s.group g).occurs.max ≠ some 0 → s.Below r level g)
    {k : Nat} {g : GroupId} (hg : (k, .group g) ∈ items) : s.Below r k g := by
  induction h with
  | nil => cases hg
  | leaf hm _ ih =>
      rcases List.mem_cons.1 hg with heq | hg
      · obtain ⟨-, rfl⟩ := Prod.mk.inj heq
        cases hm
      · exact ih (fun x hx => hmembers x (List.mem_cons_of_mem _ hx)) hg
  | never _ _ ih => exact ih (fun x hx => hmembers x (List.mem_cons_of_mem _ hx)) hg
  | @group _ outer _ _ _ hmax _ _ ihinner ih =>
      have houter := hmembers outer List.mem_cons_self hmax
      rcases List.mem_cons.1 hg with heq | hg
      · obtain ⟨rfl, hmember⟩ := Prod.mk.inj heq
        obtain rfl := Member.group.inj hmember
        exact houter
      · rcases List.mem_append.1 hg with hg | hg
        · exact ihinner (fun x hx hxmax => .nested houter hx hxmax) hg
        · exact ih (fun x hx => hmembers x (List.mem_cons_of_mem _ hx)) hg

/-- An outline has exactly the groups that are nested below, on their levels. -/
theorem mem_iff_below {r : GroupId} (h : s.Outline 1 (s.group r).members items) {k : Nat}
    {g : GroupId} : (k, .group g) ∈ items ↔ s.Below r k g := by
  constructor
  · exact h.below_of_mem fun g hg hmax => .member hg hmax
  · intro hbelow
    induction hbelow with
    | member hg hmax => exact h.mem_of_member hg hmax
    | nested _ hsub hmax ih => exact h.mem_of_nested ih hsub hmax

end Outline

/-- What is listed of an outline, up to the first group that is too deep. -/
def upToDepth (s : Schema) : List (Nat × Member) → Listed
  | [] => .nothing
  | (level, .group g) :: rest =>
    if s.limits.maxModelDepth < level then
      ⟨[], some (.modelDepth level s.limits.maxModelDepth (some (s.groupLabel g)))⟩
    else s.upToDepth rest
  | (_, m) :: rest => .behind (some (.ok m)) (s.upToDepth rest)

theorem upToDepth_leaf {m : Member} (hm : m.isGroup = false) :
    s.upToDepth ((level, m) :: items) = .behind (some (.ok m)) (s.upToDepth items) := by
  cases m with
  | group g => cases hm
  | element e => rfl
  | wildcard w => rfl

theorem upToDepth_append (xs ys : List (Nat × Member)) :
    s.upToDepth (xs ++ ys) = (s.upToDepth xs).append (s.upToDepth ys) := by
  induction xs with
  | nil => rfl
  | cons x xs ih =>
      obtain ⟨level, m⟩ := x
      cases hm : m.isGroup with
      | false =>
          rw [List.cons_append, upToDepth_leaf hm, upToDepth_leaf hm, ih, Listed.behind_append]
      | true =>
          cases m with
          | group g =>
              simp only [List.cons_append, upToDepth]
              split
              · rfl
              · exact ih
          | element e => cases hm
          | wildcard w => cases hm

/-- Without a group that is too deep all leaves are listed. -/
theorem upToDepth_of_isShallow (h : s.IsShallow items) :
    s.upToDepth items = ⟨leavesAmong items, none⟩ := by
  induction items with
  | nil => rfl
  | cons x items ih =>
      obtain ⟨level, m⟩ := x
      have hrest := ih fun k g hg => h k g (List.mem_cons_of_mem _ hg)
      cases hm : m.isGroup with
      | false =>
          rw [upToDepth_leaf hm, hrest, leavesAmong_leaf hm]
          rfl
      | true =>
          cases m with
          | group g =>
              rw [upToDepth, if_neg (Nat.not_lt.2 (h level g List.mem_cons_self)), hrest]
              rfl
          | element e => cases hm
          | wildcard w => cases hm

/-- A group that is too deep has a first one before it or is the first. -/
theorem exists_first_deep {g : GroupId} (hg : (level, .group g) ∈ items)
    (hdeep : s.limits.maxModelDepth < level) :
    ∃ before level g after, items = before ++ (level, .group g) :: after ∧ s.IsShallow before ∧
      s.limits.maxModelDepth < level := by
  induction items with
  | nil => cases hg
  | cons x items ih =>
      by_cases hx : s.IsShallow [x]
      · have hin : (level, .group g) ∈ items := by
          rcases List.mem_cons.1 hg with heq | hin
          · exact absurd (hx level g (heq ▸ List.mem_cons_self)) (Nat.not_le.2 hdeep)
          · exact hin
        obtain ⟨before, level, g, after, rfl, hshallow, hdeep⟩ := ih hin
        refine ⟨x :: before, level, g, after, rfl, ?_, hdeep⟩
        intro k h hh
        rcases List.mem_cons.1 hh with heq | hh
        · exact hx k h (heq ▸ List.mem_cons_self)
        · exact hshallow k h hh
      · simp only [IsShallow, List.mem_singleton, not_forall, Nat.not_le] at hx
        obtain ⟨k, h, rfl, hk⟩ := hx
        exact ⟨[], k, h, items, rfl, by simp [IsShallow], hk⟩

/-- A deep traversal follows the outline. -/
theorem Outline.openedAll_eq (h : s.Outline level members items) {room : Nat} {outer : Compositor}
    (hroom : level + room = s.limits.maxModelDepth + 1) :
    s.openedAll true room outer members = s.upToDepth items := by
  induction h generalizing room outer with
  | nil => rfl
  | leaf hm _ ih =>
      rw [openedAll_cons, opened_leaf _ hm, upToDepth_leaf hm, ih hroom]
      rfl
  | never hmax _ ih =>
      rw [openedAll_cons, opened_never _ (by simpa [Occurs.isEmpty] using hmax), ih hroom]
      rfl
  | @group level g _ _ _ hmax _ _ ihinner ih =>
      have hkept : ¬(!true && !(s.group g).isPointless outer) = true := Bool.false_ne_true
      have hoccurs : ¬(true && (s.group g).occurs.isEmpty) = true := by
        simpa [Occurs.isEmpty] using hmax
      rw [openedAll_cons, ih hroom, upToDepth]
      cases room with
      | zero =>
          obtain rfl : level = s.limits.maxModelDepth + 1 := hroom
          rw [opened_zero hkept hoccurs, if_pos (Nat.lt_succ_self _)]
          rfl
      | succ room =>
          rw [opened_succ _ hkept hoccurs, ihinner (by omega), if_neg (by omega), upToDepth_append]

/-- A traversal of all leaves of a group answers with the cached ones in their order, if no group
is nested deeper than the bound admits. Otherwise it answers with the leaves before the first such
group, then with a failure, then no more. Of a group that must not occur it answers nothing. -/
theorem Built.answers_deep (hs : s.Built) (r : GroupId) :
    ((s.group r).occurs.max = some 0 →
      ∀ n, (Traversal.ofGroup s r true).answer s n = none) ∧
    ((s.group r).occurs.max ≠ some 0 →
      (∀ level g, s.Below r level g → level ≤ s.limits.maxModelDepth) →
      ∀ n, (Traversal.ofGroup s r true).answer s n = ((s.leaves r).map .ok)[n]?) ∧
    ((s.group r).occurs.max ≠ some 0 →
      (∃ level g, s.Below r level g ∧ s.limits.maxModelDepth < level) →
      ∃ before level g after,
        s.Outline 1 (s.group r).members (before ++ (level, .group g) :: after) ∧
        s.IsShallow before ∧ s.limits.maxModelDepth < level ∧
        s.leaves r = leavesAmong before ++ leavesAmong after ∧
        ∀ n, (Traversal.ofGroup s r true).answer s n = ((leavesAmong before).map .ok ++
          [.error (.modelDepth level s.limits.maxModelDepth (some (s.groupLabel g)))])[n]?) := by
  obtain ⟨items, hitems⟩ := hs.exists_outline r 1
  have hleaves : s.leaves r = leavesAmong items := by
    rw [hitems.leaves_eq hs, hs.leaves_eq_flatMap]
  have hlisted : (s.group r).occurs.max ≠ some 0 → ∀ n,
      (Traversal.ofGroup s r true).answer s n = (s.upToDepth items).answers[n]? := by
    intro hmax n
    obtain ⟨hfits, hpending⟩ := Traversal.pending_ofGroup (s := s) r true
      (by simpa [Occurs.isEmpty] using hmax)
    rw [Traversal.answer_eq hfits, hpending, hitems.openedAll_eq (Nat.add_comm _ _)]
  refine ⟨?_, ?_, ?_⟩
  · intro hmax n
    have hstart : Traversal.ofGroup s r true = ⟨[], true, false⟩ := by
      simp [Traversal.ofGroup, Occurs.isEmpty, hmax]
    rw [hstart, Traversal.answer_eq (Nat.zero_le _)]
    rfl
  · intro hmax hbelow n
    have hshallow : s.IsShallow items := fun level g hg => hbelow level g (hitems.mem_iff_below.1 hg)
    rw [hlisted hmax, upToDepth_of_isShallow hshallow, hleaves]
    simp [Listed.answers]
  · rintro hmax ⟨level, g, hbelow, hdeep⟩
    obtain ⟨before, level, g, after, rfl, hshallow, hdeep⟩ :=
      exists_first_deep (hitems.mem_iff_below.2 hbelow) hdeep
    refine ⟨before, level, g, after, hitems, hshallow, hdeep, ?_, fun n => ?_⟩
    · rw [hleaves, leavesAmong_append, leavesAmong_group]
    · rw [hlisted hmax, upToDepth_append, upToDepth_of_isShallow hshallow, upToDepth, if_pos hdeep]
      simp [Listed.append, Listed.answers]

end Schema

/-- An `a` and seven nested sequences around a `b`, one more than models may be deep. -/
def outlineSample : Components :=
  let c := Components.withElements .v10 [("a", .once), ("b", .once)]
  let c := c.withGroup .sequence .once [.element ⟨1⟩]
  let c := (List.range 5).foldl (fun c i => c.withGroup .sequence .once [.group ⟨i⟩]) c
  { c.withGroup .sequence .once [.element ⟨0⟩, .group ⟨5⟩] with limits := ⟨5, 9999⟩ }

theorem assembled_outlineSample : outlineSample.Assembled := by
  refine .limits _ (Components.Assembled.withGroup ?_ ..)
  have hfold : ∀ (is : List Nat) {c : Components}, c.Assembled →
      (is.foldl (fun c i => c.withGroup .sequence .once [.group ⟨i⟩]) c).Assembled := by
    intro is
    induction is with
    | nil => exact id
    | cons i is ih => exact fun hc => ih (hc.withGroup ..)
  exact hfold _ ((Components.assembled_withElements ..).withGroup ..)

/-- Below the `a` the innermost sequence is too deep. The groups around it are not too deep if the
traversal starts in the outermost of them. -/
theorem answers_deep_sample : outlineSample.schema.Built ∧
    (∀ n, (Traversal.ofGroup outlineSample.schema ⟨5⟩ true).answer outlineSample.schema n =
      [.ok (.element ⟨1⟩)][n]?) ∧
    ∃ before level g, (∀ n, (Traversal.ofGroup outlineSample.schema ⟨6⟩ true).answer
      outlineSample.schema n = ((Schema.leavesAmong before).map .ok ++
        [.error (.modelDepth level 5 (some (outlineSample.schema.groupLabel g)))])[n]?) := by
  have hs : outlineSample.schema.Built := assembled_outlineSample.built rfl
  have hnested : ∀ i < 6,
      Member.group ⟨5 - i⟩ ∈ (outlineSample.schema.group ⟨6 - i⟩).members ∧
        (outlineSample.schema.group ⟨5 - i⟩).occurs.max ≠ some 0 := by
    decide +kernel
  have hdeep : ∀ i < 6, outlineSample.schema.Below ⟨6⟩ (i + 1) ⟨5 - i⟩ := by
    intro i
    induction i with
    | zero => exact fun h => .member (hnested 0 h).1 (hnested 0 h).2
    | succ i ih =>
        intro h
        have hi : 6 - (i + 1) = 5 - i := by omega
        obtain ⟨hmem, hmax⟩ := hnested (i + 1) h
        exact .nested (ih (by omega)) (hi ▸ hmem) hmax
  refine ⟨hs, ?_, ?_⟩
  · refine (hs.answers_deep ⟨5⟩).2.1 (by decide +kernel) fun level g h => ?_
    have hle := h.index_add_le hs
    exact Nat.le_trans (Nat.le_add_left ..) hle
  · obtain ⟨before, level, g, after, -, -, -, -, hanswers⟩ :=
      (hs.answers_deep ⟨6⟩).2.2 (by decide +kernel) ⟨6, ⟨0⟩, hdeep 5 (by decide), by decide +kernel⟩
    exact ⟨before, level, g, hanswers⟩

end Conform
