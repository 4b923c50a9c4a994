import Conform.Proofs.Model.Attribution
import Conform.Proofs.Model.Parts
import Conform.Proofs.Schema.Sample
/-!
# Sequences of parts, once through

A walk through a sequence of parts stands on an element of it or inside one of its groups. What is
still to come is the rest of that part, and then the parts behind it.
-/

namespace Conform

namespace Walk

/-- A walk on an element of a sequence of parts. -/
structure OnElement (s : Schema) (root : GroupId) (w : Walk) (m : Member) : Prop where
  current : w.current = some m
  outer : w.outer = []
  leaf : m.isGroup = false
  not_over : ∀ n ∈ (s.occurs m).max, w.count m < n.toNat
  unmatched : w.here.matched = false → w.count m = 0
  parts : ∃ done, w.Parts s root w.here done (m :: w.here.rest) ∧
    (w.here.matched = true → ∃ x ∈ done ++ [m], 0 < w.count x)

/-- A walk inside a group of a sequence of parts. -/
structure Nested (s : Schema) (root : GroupId) (w : Walk) (f : Frame) (g : GroupId) : Prop where
  outer : w.outer = [f]
  parts : ∃ done, w.Parts s root f done (.group g :: f.rest) ∧
    (f.matched = true → ∃ x ∈ done, 0 < w.count x)

/-- A walk through a sequence of parts, with the children that are left. In a group in which nothing
has matched, a member that must be there is still to come. -/
inductive ThroughParts (s : Schema) (root : GroupId) (w : Walk) (ns : List QName) : Prop
  | ended : w.current = none → ThroughParts s root w ns
  | element {m : Member} : w.OnElement s root m → ThroughParts s root w ns
  | choice {f : Frame} {g : GroupId} {m : Member} : w.Nested s root f g → s.IsFlatChoice g →
      w.OnAlternative s g ns m → ThroughParts s root w ns
  | sequence {f : Frame} {g : GroupId} {m : Member} : w.Nested s root f g → s.IsFlatSequence g →
      w.OnSingle s g ns m →
      (w.here.matched = false → ∃ x ∈ m :: w.here.rest, (s.occurs x).min.toNat ≠ 0) →
      ThroughParts s root w ns

/-- The frame of the sequence of parts, in which the walk stands or which is around it. -/
def partsFrame (w : Walk) : Frame := w.outer.head?.getD w.here

/-- What is still to come of the part in which a walk stands. -/
def PartRest (s : Schema) (w : Walk) (m : Member) : List QName → Prop :=
  if w.outer = [] then s.More m (w.count m)
  else SingleRest s w.here.group w.here.matched (w.count w.hereMember) (m :: w.here.rest)

/-- Nothing has matched in a sequence of parts. -/
def Untouched (w : Walk) : Prop :=
  w.here.matched = false ∧ w.partsFrame.matched = false ∧
    (w.outer ≠ [] → w.count w.hereMember = 0)

/-- What is still to come of a walk through a sequence of parts. -/
def PartsResidual (s : Schema) (root : GroupId) (w : Walk) (ns : List QName) : Prop :=
  match w.current with
  | none => ns = []
  | some m => s.Then (PartRest s w m) w.partsFrame.rest ns ∨
      ns = [] ∧ w.Untouched ∧ (s.group root).occurs.min.toNat = 0

/-- How many leaves of a part are passed without a child at most. -/
def partBound (s : Schema) : Nat := 2 * s.particles.length + 1

/-- How many leaves are passed without a child at most. -/
def partsTodo (s : Schema) (w : Walk) : Nat :=
  if w.current = none then 0
  else w.partsFrame.rest.length * partBound s +
    if w.outer = [] then 1 else w.singleTodo s w.here.group

variable {s : Schema} {root g : GroupId} {w : Walk} {f : Frame} {m : Member} {ns : List QName}

theorem OnElement.residual_iff (h : w.OnElement s root m) : PartsResidual s root w ns ↔
    s.Then (s.More m (w.count m)) w.here.rest ns ∨
      ns = [] ∧ w.here.matched = false ∧ (s.group root).occurs.min.toNat = 0 := by
  simp [PartsResidual, h.current, PartRest, h.outer, partsFrame, Untouched]

theorem Nested.residual_iff (h : w.Nested s root f g) (hhere : w.here.group = g)
    (hcurrent : w.current = some m) (ns : List QName) : PartsResidual s root w ns ↔
      s.Then (SingleRest s g w.here.matched (w.count (.group g)) (m :: w.here.rest)) f.rest ns ∨
        ns = [] ∧ (w.here.matched = false ∧ f.matched = false ∧ w.count (.group g) = 0) ∧
          (s.group root).occurs.min.toNat = 0 := by
  simp [PartsResidual, hcurrent, PartRest, h.outer, partsFrame, Untouched, hereMember, hhere]

theorem OnElement.todo_eq (h : w.OnElement s root m) :
    w.partsTodo s = w.here.rest.length * partBound s + 1 := by
  simp [partsTodo, h.current, h.outer, partsFrame]

theorem Nested.todo_eq (h : w.Nested s root f g) (hhere : w.here.group = g)
    (hcurrent : w.current = some m) :
    w.partsTodo s = f.rest.length * partBound s + w.singleTodo s g := by
  simp [partsTodo, hcurrent, h.outer, partsFrame, hhere]

/-- The counts around a group of a sequence of parts do not change while a walk stays in it. -/
theorem Nested.stays (h : w.Nested s root f g) (hs : s.Built) (hg : s.IsOnceThrough root)
    {w' : Walk} (hstays : StaysIn s g w w')
    (hceilings : ∀ x ∈ (s.group g).members, w'.ceilings.count x = 0) :
    w'.Nested s root f g := by
  obtain ⟨done, hparts, hmatched⟩ := h.parts
  have hmembers := hparts.members
  have hleaf : ∀ y ∈ (s.group root).members, ∀ x ∈ s.leavesOf y, x.isGroup = false :=
    fun y hy x hx => (hg.parts y hy).1.isGroup_leaf hx
  have hgroup : ∀ x : Member, x.isGroup = false → x ≠ .group g := by
    rintro x hx rfl
    cases hx
  have hroot := hstays.same (.group root) (hs.forest.ne_of_mem (by simp [hmembers]))
    (fun hx => by cases hleaf (.group g) (by simp [hmembers]) _ hx)
  -- the leaves of a part are no members of another one
  have hapart : ∀ y ∈ done ++ f.rest, ∀ x ∈ s.leavesOf y, x ∉ (s.group g).members :=
    fun y hy x hx hx' => hg.not_mem_leavesOf hs hmembers hx' y hy hx
  have hdone : ∀ x ∈ done, w'.count x = w.count x := by
    intro x hx
    refine (hstays.same x ?_ ?_).1
    · intro heq
      have hnodup := hmembers ▸ hs.forest.nodup root
      rw [List.nodup_append] at hnodup
      exact hnodup.2.2 x hx x (by simp [heq]) rfl
    · intro hx'
      have hxleaf := hleaf (.group g) (by simp [hmembers]) x hx'
      exact hapart x (List.mem_append_left _ hx) x (Components.mem_leavesOf_self hxleaf) hx'
  refine ⟨hstays.outer.trans h.outer, done, ⟨hparts.group, hmembers, ?_, ?_, ?_, ?_, ?_⟩, ?_⟩
  · exact hroot.1.trans hparts.count_root
  · exact hroot.2.trans hparts.ceiling_root
  · intro x hx
    rw [hdone x hx]
    exact hparts.le_max x hx
  · intro l hl
    by_cases hin : l ∈ (s.group g).members
    · exact hceilings l hin
    · rw [(hstays.same l (hgroup l (hg.distinct.isGroup_eq_false hl)) hin).2]
      exact hparts.ceilings l hl
  · intro g' hg' x hx
    have hmem : .group g' ∈ (s.group root).members := by simp [hmembers, hg']
    have hout := hapart (.group g') (List.mem_append_right _ hg') x hx
    rw [(hstays.same x (hgroup x (hleaf _ hmem x hx)) hout).1]
    exact hparts.fresh g' hg' x hx
  · intro hyes
    obtain ⟨x, hx, hpos⟩ := hmatched hyes
    exact ⟨x, hx, by rw [hdone x hx]; exact hpos⟩

/-! ## Between two parts -/

/-- A walk comes to where `P` is still to come, with these violations. -/
def ArrivesParts (s : Schema) (root : GroupId) (P : List QName → Prop) (bound : Nat)
    (violations : List Violation) (r : Except Failure (List Violation) × Walk) : Prop :=
  ∃ w, r = (.ok violations, w) ∧ w.partsTodo s ≤ bound ∧
    ∀ ns, w.ThroughParts s root ns ∧ (P ns ↔ PartsResidual s root w ns)

theorem arrivesParts_ended {P : List QName → Prop} {r : Except Failure (List Violation) × Walk}
    {w' : Walk} {violations : List Violation} (bound : Nat) (hr : r = (.ok violations, w'))
    (hended : w'.current = none) (hP : ∀ ns, P ns ↔ ns = []) :
    ArrivesParts s root P bound violations r := by
  refine ⟨w', hr, ?_, fun ns => ⟨.ended hended, ?_⟩⟩
  · simp [partsTodo, hended]
  · rw [hP]
    simp [PartsResidual, hended]

theorem singleTodo_le_partBound (hs : s.Built)
    (hlt : w.here.rest.length < (s.group g).members.length) : w.singleTodo s g ≤ partBound s := by
  have hlength := hs.forest.length_members_le g
  rw [singleTodo, partBound]
  split <;> omega

theorem Parts.isGroupOver_eq_false {done rest : List Member} (hg : s.IsOnceThrough root)
    (h : w.Parts s root w.here done rest) : w.isGroupOver s = false := by
  have hcount := h.count_root
  have hreach : w.reach w.hereMember = w.count (.group root) := by
    unfold count at hcount
    rw [reach, hereMember, h.group, h.ceiling_root, count, hcount]
    rfl
  rw [isGroupOver_iff h.group hreach, hg.max_one, hcount]
  intro n hn
  rw [← Option.some.inj hn]
  decide

/-- A walk enters a group of a sequence of parts. -/
theorem Parts.step_enter {done rest : List Member} (hs : s.Built) (hg : s.IsOnceThrough root)
    (hdepth : 1 ≤ s.limits.maxModelDepth) (houter : w.outer = [])
    (h : w.Parts s root w.here done (.group g :: rest)) (hrest : w.here.rest = .group g :: rest)
    (hmatched : w.here.matched = true → ∃ x ∈ done, 0 < w.count x) (last : Option Member)
    (violations : List Violation) :
    ∃ w', Passage.step s ⟨w, last, violations⟩ = .again ⟨w', some (.group g), violations⟩ ∧
      w'.Nested s root ⟨w.here.group, rest, w.here.matched⟩ g ∧ w'.here = ⟨g, (s.group g).members, false⟩ ∧
      w'.count (.group g) = 0 ∧ w'.ceilings.count (.group g) = 0 ∧
      ∀ x ∈ (s.group g).members, w'.count x = 0 ∧ w'.ceilings.count x = 0 := by
  have hmem : .group g ∈ (s.group root).members := by simp [h.members]
  obtain ⟨hpart, hmax⟩ := hg.parts _ hmem
  have hne : (s.group g).compositor ≠ .all := by
    cases hpart with
    | element hm => cases hm
    | choice hc => rw [hc.compositor]; simp
    | sequence hc _ => rw [hc.compositor]; simp
  have hleaf : ∀ x ∈ (s.group g).members, x.isGroup = false :=
    fun x hx => hpart.isGroup_leaf (m := .group g) hx
  have hnext := nextItem_of_ne_all (s := s) (w := w) (by rw [h.group, hg.compositor]; simp)
  rw [hrest] at hnext
  have hstep : Passage.step s ⟨w, last, violations⟩ = _ :=
    Passage.step_of_group (h.isGroupOver_eq_false hg) hnext
  have hroot := hs.forest.ne_of_mem hmem
  have hnot : ∀ x ∈ done, x ≠ .group g := by
    intro x hx heq
    have hnodup := h.members ▸ hs.forest.nodup root
    rw [List.nodup_append] at hnodup
    exact hnodup.2.2 x hx _ (List.mem_cons_self ..) heq
  have hother : ∀ x : Member, x.isGroup = false → x ≠ .group g := by
    rintro x hx rfl
    cases hx
  have hdepth' : s.limits.isModelDepthExceeded (w.outer.length + 1) = false := by
    rw [houter]
    exact decide_eq_false (by simp; omega)
  have henter : enter s { w with here := { w.here with rest } } g = .ok { w with
      here := ⟨g, (s.group g).members, false⟩
      outer := { w.here with rest } :: w.outer } := by
    unfold enter
    simp only
    rw [hdepth', items_of_ne_all hne hmax]
    rfl
  have hcount : ∀ x, (w.counts.set (.group g) 0).count x = if x = .group g then 0 else w.count x :=
    fun x => Tally.count_set ..
  have hceiling : ∀ x, (w.ceilings.set (.group g) 0).count x =
      if x = .group g then 0 else w.ceilings.count x :=
    fun x => Tally.count_set ..
  refine ⟨{ w with
    here := ⟨g, (s.group g).members, false⟩
    outer := [{ w.here with rest }]
    counts := w.counts.set (.group g) 0
    ceilings := w.ceilings.set (.group g) 0 }, ?_, ⟨rfl, done, ⟨h.group, h.members, ?_, ?_, ?_, ?_,
      ?_⟩, ?_⟩, rfl, ?_, ?_, ?_⟩
  · rw [hstep, Passage.enterGroup, henter, houter]
  · exact (hcount _).trans ((if_neg hroot).trans h.count_root)
  · exact (hceiling _).trans ((if_neg hroot).trans h.ceiling_root)
  · intro x hx
    unfold count
    rw [hcount, if_neg (hnot x hx)]
    exact h.le_max x hx
  · intro l hl
    rw [hceiling, if_neg (hother l (hg.distinct.isGroup_eq_false hl))]
    exact h.ceilings l hl
  · intro g' hg' x hx
    have hmem' : .group g' ∈ (s.group root).members := by
      rw [h.members]
      exact List.mem_append_right _ (List.mem_cons_of_mem _ hg')
    unfold count
    rw [hcount, if_neg (hother x ((hg.parts _ hmem').1.isGroup_leaf (m := .group g') hx))]
    exact h.fresh g' (by rw [hrest]; exact List.mem_cons_of_mem _ hg') x hx
  · intro hyes
    obtain ⟨x, hx, hpos⟩ := hmatched hyes
    refine ⟨x, hx, ?_⟩
    unfold count
    rw [hcount, if_neg (hnot x hx)]
    exact hpos
  · exact (hcount _).trans (if_pos rfl)
  · exact (hceiling _).trans (if_pos rfl)
  · intro x hx
    have hxroot : x ∈ s.leaves root := by
      rw [hg.leaves_eq hs]
      exact List.mem_flatMap.2 ⟨_, hmem, hx⟩
    unfold count
    rw [hcount, hceiling, if_neg (hother x (hleaf x hx)), if_neg (hother x (hleaf x hx))]
    exact ⟨h.fresh g (by rw [hrest]; exact List.mem_cons_self ..) x hx, h.ceilings x hxroot⟩

/-- A walk stands on an element of a sequence of parts. -/
theorem Parts.step_place {done rest : List Member} (hs : s.Built) (hg : s.IsOnceThrough root)
    (houter : w.outer = []) (h : w.Parts s root w.here done (m :: rest))
    (hrest : w.here.rest = m :: rest) (hm : m.isGroup = false)
    (hmatched : w.here.matched = true → ∃ x ∈ done, 0 < w.count x) (last : Option Member)
    (violations : List Violation) :
    ∃ w', Passage.step s ⟨w, last, violations⟩ = .placed ⟨w', some m, violations⟩ ∧
      w'.OnElement s root m ∧ w'.here = ⟨w.here.group, rest, w.here.matched⟩ ∧ w'.count m = 0 := by
  have hnext := nextItem_of_ne_all (s := s) (w := w) (by rw [h.group, hg.compositor]; simp)
  rw [hrest] at hnext
  have hcount : ∀ x, (w.counts.set m 0).count x = if x = m then 0 else w.count x :=
    fun x => Tally.count_set ..
  have hnot : ∀ x ∈ done, x ≠ m := by
    intro x hx heq
    have hnodup := h.members ▸ hs.forest.nodup root
    rw [List.nodup_append] at hnodup
    exact hnodup.2.2 x hx _ (List.mem_cons_self ..) heq
  have hmax := (hg.parts m (by simp [h.members])).2
  have hzero : count { w with
      here := { w.here with rest }, counts := w.counts.set m 0, current := some m } m = 0 :=
    (hcount m).trans (if_pos rfl)
  refine ⟨{ w with here := { w.here with rest }, counts := w.counts.set m 0, current := some m },
    ?_, ⟨rfl, houter, hm, ?_, fun _ => hzero, done, ⟨h.group, h.members, ?_, h.ceiling_root, ?_,
      h.ceilings, ?_⟩, ?_⟩, rfl, hzero⟩
  · rw [Passage.step_of_leaf (h.isGroupOver_eq_false hg) hnext hm]
    simp [Passage.place, h.group, hg.compositor]
  · intro n hn
    rw [hzero]
    exact Occurs.max_pos hmax hn
  · refine (hcount _).trans ((if_neg ?_).trans h.count_root)
    rintro rfl
    cases hm
  · intro x hx
    unfold count
    rw [hcount, if_neg (hnot x hx)]
    exact h.le_max x hx
  · intro g' hg' x hx
    unfold count
    rw [hcount]
    split
    · rfl
    · exact h.fresh g' (by rw [hrest]; exact List.mem_cons_of_mem _ hg') x hx
  · intro hyes
    obtain ⟨x, hx, hpos⟩ := hmatched hyes
    refine ⟨x, List.mem_append_left _ hx, ?_⟩
    unfold count
    rw [hcount, if_neg (hnot x hx)]
    exact hpos

theorem arrives_element {done rest : List Member} (hs : s.Built) (hg : s.IsOnceThrough root)
    (houter : w.outer = []) (h : w.Parts s root w.here done (m :: rest))
    (hrest : w.here.rest = m :: rest) (hm : m.isGroup = false)
    (hmatched : w.here.matched = true → ∃ x ∈ done, 0 < w.count x) (last : Option Member)
    (violations : List Violation) {n : Nat} :
    ArrivesParts s root (CursorRest s root w.here) (w.here.rest.length * partBound s) violations
      (settle s (Passage.run s (n + 1) ⟨w, last, violations⟩)) := by
  obtain ⟨w', hstep, hon, hhere, hzero⟩ :=
    h.step_place hs hg houter hrest hm hmatched last violations
  refine ⟨w', ?_, ?_, fun ns => ⟨.element hon, ?_⟩⟩
  · rw [Passage.run_placed hstep]
    rfl
  · rw [hon.todo_eq, hhere, hrest, List.length_cons, Nat.succ_mul, partBound]
    dsimp only
    omega
  · rw [hon.residual_iff, hhere, hzero, Components.then_words, CursorRest, hrest]

theorem arrives_group {done rest : List Member} (hs : s.Built) (hg : s.IsOnceThrough root)
    (hdepth : 1 ≤ s.limits.maxModelDepth) (houter : w.outer = [])
    (h : w.Parts s root w.here done (.group g :: rest)) (hrest : w.here.rest = .group g :: rest)
    (hmatched : w.here.matched = true → ∃ x ∈ done, 0 < w.count x) (last : Option Member)
    (violations : List Violation) {n : Nat} :
    ArrivesParts s root (CursorRest s root w.here) (w.here.rest.length * partBound s) violations
      (settle s (Passage.run s (n + 2) ⟨w, last, violations⟩)) := by
  obtain ⟨w₁, hstep, hnested, hhere, hcount, hceiling, hmembers⟩ :=
    h.step_enter hs hg hdepth houter hrest hmatched last violations
  have hmax := (hg.parts (.group g) (by simp [h.members])).2
  have hover : ∀ n ∈ (s.group g).occurs.max, w₁.count (.group g) < n.toNat := by
    intro n hn
    rw [hcount]
    exact Occurs.max_pos (o := (s.group g).occurs) hmax hn
  -- wherever the walk comes to in the group, the whole group is still to come
  have harrives : ∀ {w' m violations}, w'.Nested s root ⟨w.here.group, rest, w.here.matched⟩ g →
      w'.here.group = g → w'.current = some m → w'.here.matched = false →
      w'.count (.group g) = 0 → w'.here.rest.length < (s.group g).members.length →
      (∀ ns, w'.ThroughParts s root ns) →
      ArrivesParts s root (CursorRest s root w.here) (w.here.rest.length * partBound s) violations
        (.ok violations, w') := by
    intro w' m violations hnested' hgroup hcurrent hunmatched hzero hlt hthrough
    refine ⟨w', rfl, ?_, fun ns => ⟨hthrough ns, ?_⟩⟩
    · have hbound := singleTodo_le_partBound (w := w') hs hlt
      rw [hnested'.todo_eq hgroup hcurrent, hrest, List.length_cons, Nat.succ_mul]
      dsimp only
      omega
    · rw [hnested'.residual_iff hgroup hcurrent, CursorRest, hrest, hunmatched, hzero,
        ← Components.then_words, singleRest_unmatched]
      simp
  rw [Passage.run_again hstep]
  cases (hg.parts (.group g) (by simp [h.members])).1 with
  | element hm => cases hm
  | choice hc =>
      obtain ⟨m, ms, hcons⟩ := List.exists_cons_of_ne_nil hc.nonempty
      have hinside : w₁.InChoice s g := by
        refine ⟨by rw [hhere], by rw [hhere], by rw [hcount, hceiling], ?_, ?_⟩
        · exact fun x hx => (hmembers x hx).2
        · exact fun x hx => (hmembers x hx).1
      have hplaced : ∀ ns, ∃ w', Passage.run s (n + 1) ⟨w₁, some (.group g), violations⟩ =
          .placed ⟨w', some m, violations⟩ ∧ StaysIn s g w₁ w' ∧ w'.OnAlternative s g ns m ∧
            w'.here.rest = ms ∧ w'.count (.group g) = w₁.count (.group g) :=
        fun ns => hinside.run_placed hc ns _ violations hover
          (hcons.trans (List.nil_append _).symm) (by rw [hhere]; exact hcons) (by simp)
      obtain ⟨w', hrun, hstays, hon, hrest', hcount'⟩ := hplaced []
      rw [hrun]
      have hnested' := hnested.stays hs hg hstays hon.inside.ceilings
      refine harrives hnested' hon.inside.here hon.current hon.inside.matched
        (hcount'.trans hcount) ?_ ?_
      · rw [hrest', hcons]
        exact Nat.lt_succ_self _
      · intro ns
        obtain ⟨w'', hrun', -, hon', -⟩ := hplaced ns
        rw [hrun] at hrun'
        cases hrun'
        exact .choice hnested' hc hon'
  | sequence hc hrequired =>
      obtain ⟨x, hx, hxmin⟩ := hrequired
      obtain ⟨m, ms, hcons⟩ := List.exists_cons_of_ne_nil (List.ne_nil_of_mem hx)
      have hinside : w₁.InSequence s g := by
        refine ⟨by rw [hhere], hceiling, ?_, ?_⟩
        · exact fun x hx => (hmembers x hx).2
        · intro x hx
          rw [(hmembers x hx).1]
          exact Nat.zero_le 1
      have hplaced : ∀ ns, ∃ w', Passage.run s (n + 1) ⟨w₁, some (.group g), violations⟩ =
          .placed ⟨w', some m, violations⟩ ∧ StaysIn s g w₁ w' ∧ w'.OnSingle s g ns m ∧
            w'.here = ⟨w₁.here.group, ms, w₁.here.matched⟩ ∧
              w'.count (.group g) = w₁.count (.group g) :=
        fun ns => hinside.run_placed hc ns _ violations hover
          (hcons.trans (List.nil_append _).symm) (by rw [hhere]; exact hcons)
          (fun _ => .inr (by simp)) (by rw [hhere]; simp)
      obtain ⟨w', hrun, hstays, hon, hhere', hcount'⟩ := hplaced []
      rw [hrun]
      have hnested' := hnested.stays hs hg hstays hon.inside.ceilings
      have hunmatched : w'.here.matched = false := by rw [hhere', hhere]
      refine harrives hnested' hon.inside.here hon.current hunmatched (hcount'.trans hcount) ?_ ?_
      · rw [hhere', hcons]
        exact Nat.lt_succ_self _
      · intro ns
        obtain ⟨w'', hrun', -, hon', -⟩ := hplaced ns
        rw [hrun] at hrun'
        cases hrun'
        refine .sequence hnested' hc hon' fun _ => ⟨x, ?_, hxmin⟩
        rw [hhere', ← hcons]
        exact hx

/-- Between two parts the walk comes to the next one, or to its end. -/
theorem AtCursor.arrives (h : w.AtCursor s root) (hs : s.Built) (hg : s.IsOnceThrough root)
    (hdepth : 1 ≤ s.limits.maxModelDepth) (last : Option Member) (violations : List Violation)
    {n : Nat} :
    ArrivesParts s root (CursorRest s root w.here) (w.here.rest.length * partBound s) violations
      (settle s (Passage.run s (n + 2) ⟨w, last, violations⟩)) := by
  cases h with
  | full houter hgroup hrest hmatched hcount =>
      have hreach : 1 ≤ w.reach w.hereMember := by
        unfold count at hcount
        rw [reach, hereMember, hgroup, hcount]
        exact Nat.le_max_left ..
      have hover : w.isGroupOver s = true := by
        rw [isGroupOver, hgroup, Occurs.isOver, hg.max_one]
        exact decide_eq_true hreach
      have hstep : Passage.step s ⟨w, last, violations⟩ = .ended ⟨w, last, violations⟩ := by
        rw [Passage.step_of_over hover, closeGroup_of_root houter]
        rfl
      have hmin := hs.min_le_max (.group root) 1 hg.max_one
      have hfinish : finish s ⟨w, last, violations⟩ = (violations, { w with current := none }) := by
        apply finish_of_admitted last violations
        · rw [hgroup]
          exact .inl (Nat.le_trans hmin hreach)
        · rw [hereMember, hgroup, hg.max_one, hcount]
          intro n hn
          rw [← Option.some.inj hn]
          decide
      rw [Passage.run_ended hstep]
      refine arrivesParts_ended _ (by rw [settle, hfinish]) rfl ?_
      intro ns
      rw [CursorRest, hrest, hmatched, Components.row_nil_iff]
      simp
  | between done houter h hmatched =>
      cases hrest : w.here.rest with
      | nil =>
          -- nothing has matched, and no part is left
          have hunmatched : w.here.matched = false := by
            by_contra hno
            exact (hmatched (by simpa using hno)).1 hrest
          have hnext := nextItem_of_ne_all (s := s) (w := w)
            (by rw [h.group, hg.compositor]; simp)
          have hsame : ({ w with here := { w.here with rest := [] } } : Walk) = w := by rw [← hrest]
          rw [hrest, hsame] at hnext
          have hstep : Passage.step s ⟨w, last, violations⟩ = .ended ⟨w, none, violations⟩ := by
            rw [Passage.step_of_none (h.isGroupOver_eq_false hg) hnext]
            simp [Passage.leaveEnd, Passage.leaveUnmatched, hunmatched, h.group, hg.compositor,
              closeGroup_of_root, houter]
          have hfinish : finish s ⟨w, none, violations⟩ = (violations, { w with current := none }) := by
            apply finish_of_admitted none violations
            · rw [h.group]
              exact .inr ⟨hg.compositor, rfl⟩
            · rw [hereMember, h.group, h.count_root]
              exact fun n _ => Nat.zero_le _
          rw [Passage.run_ended hstep]
          refine arrivesParts_ended _ (by rw [settle, hfinish]) rfl ?_
          intro ns
          rw [CursorRest, hrest, Components.row_nil_iff]
          constructor
          · intro hcases
            rcases hcases with hnil | hnil
            · exact hnil
            · exact hnil.1
          · exact .inl
      | cons m rest =>
          rw [← hrest]
          have hpos := fun hyes => (hmatched hyes).2
          cases hm : m.isGroup with
          | false =>
              exact arrives_element hs hg houter (hrest ▸ h) hrest hm hpos last violations
          | true =>
              cases m with
              | element e => cases hm
              | wildcard x => cases hm
              | group g =>
                  exact arrives_group hs hg hdepth houter (hrest ▸ h) hrest hpos last violations

/-! ## The end of a part -/

/-- The walk goes on behind the end of a member or group, with a report if it is missing. -/
def goOn (s : Schema) (n : Nat) (last : Option Member) (violations report : List Violation) :
    Option Bool × Walk → Move
  | (none, w) => .ended ⟨w, last, violations⟩
  | (some missing, w) =>
    Passage.run s n ⟨w, last, violations ++ if missing then report else []⟩

/-- A walk comes to where `P` is still to come, with more violations if it cannot. -/
def ComesParts (s : Schema) (root : GroupId) (P : List QName → Prop) (bound : Nat)
    (violations : List Violation) (r : Except Failure (List Violation) × Walk) : Prop :=
  ∃ more w, r = (.ok (violations ++ more), w) ∧ w.partsTodo s ≤ bound ∧
    ∀ ns, w.ThroughParts s root ns ∧ (P ns ↔ more = [] ∧ PartsResidual s root w ns)

theorem moveOn_eq_goOn (w : Walk) (m : Member) : w.moveOn s m =
    settle s (goOn s s.stepBudget none [] [⟨m, w.count m, [m]⟩] (w.closeLeaf s m)) := by
  cases hclose : w.closeLeaf s m with
  | mk missing w' =>
      cases missing with
      | none => rw [moveOn_of_none hclose, goOn]
      | some missing => rw [moveOn_of_some hclose, goOn, List.nil_append]

theorem ClosesPart.comes {k : Nat} {r : Option Bool × Walk} (h : ClosesPart s root f m k r)
    (hs : s.Built) (hg : s.IsOnceThrough root) (hdepth : 1 ≤ s.limits.maxModelDepth)
    (last : Option Member) (violations : List Violation) {report : List Violation}
    (hreport : report ≠ [] ∨ (s.occurs m).min.toNat ≤ k) {n : Nat} :
    ComesParts s root (PartEnds s root f m k) (f.rest.length * partBound s) violations
      (settle s (goOn s (n + 2) last violations report r)) := by
  cases h with
  | @on missing w hcursor hrest hmissing hends =>
      obtain ⟨w', hr, htodo, hthrough⟩ := hcursor.arrives hs hg hdepth last
        (violations ++ if missing then report else []) (n := n)
      refine ⟨if missing then report else [], w', hr, ?_, ?_⟩
      · rw [← hrest]
        exact htodo
      · intro ns
        refine ⟨(hthrough ns).1, ?_⟩
        rw [hends, (hthrough ns).2]
        have hnone : missing = false ↔ (if missing then report else []) = [] := by
          cases missing with
          | false => simp
          | true =>
              have hlt := hmissing rfl
              rcases hreport with hne | hle
              · simp [hne]
              · omega
        rw [hnone]
  | @past w hgroup hcount hmin hends =>
      have hfinish : finish s ⟨w, last, violations⟩ = (violations, { w with current := none }) := by
        apply finish_of_admitted last violations
        · rw [hgroup, hmin]
          exact .inl (Nat.zero_le _)
        · rw [hereMember, hgroup, hcount]
          exact fun n _ => Nat.zero_le _
      refine ⟨[], { w with current := none }, ?_, ?_, ?_⟩
      · rw [goOn, settle, hfinish, List.append_nil]
      · simp [partsTodo]
      · intro ns
        refine ⟨.ended rfl, ?_⟩
        rw [hends]
        simp [PartsResidual]

/-- If nothing more of a part can come, it ends with its count. -/
theorem partEnds_iff {k : Nat} {Q : List QName → Prop}
    (hQ : ∀ u v, ns = u ++ v → (Q u ↔ u = [] ∧ (s.occurs m).Admits k))
    (hmax : ∀ n ∈ (s.occurs m).max, k ≤ n.toNat) :
    PartEnds s root f m k ns ↔ s.Then Q f.rest ns ∨
      ns = [] ∧ f.matched = false ∧ k = 0 ∧ (s.group root).occurs.min.toNat = 0 := by
  have hadmits : (s.occurs m).Admits k ↔ (s.occurs m).min.toNat ≤ k := by
    unfold Occurs.Admits
    exact and_iff_left hmax
  rw [PartEnds, Components.then_nil hQ, hadmits]

/-! ## Children of elements -/

/-- The end of an element, where nothing more of it can come. -/
theorem OnElement.comes_end {done : List Member} (hs : s.Built)
    (hg : s.IsOnceThrough root) (hdepth : 1 ≤ s.limits.maxModelDepth) (houter : w.outer = [])
    (hm : m.isGroup = false) (hmax : ∀ n ∈ (s.occurs m).max, w.count m ≤ n.toNat)
    (hparts : w.Parts s root w.here done (m :: w.here.rest))
    (hmatched : w.here.matched = true → ∃ x ∈ done ++ [m], 0 < w.count x) :
    ComesParts s root (PartEnds s root w.here m (w.count m)) (w.here.rest.length * partBound s) []
      (w.moveOn s m) := by
  have hreach : w.reach m = w.count m := by
    have hleaf : m ∈ s.leaves root := by
      rw [hg.leaves_eq hs]
      exact List.mem_flatMap.2 ⟨m, by simp [hparts.members], Components.mem_leavesOf_self hm⟩
    rw [reach, hparts.ceilings m hleaf]
    exact Nat.max_eq_left (Nat.zero_le _)
  have hcloses := hparts.closes hs hg hmax hreach hmatched []
  have hsame : ({ w with here := w.here, outer := [] } : Walk) = w := by rw [← houter]
  rw [hsame] at hcloses
  obtain ⟨k, hk⟩ := Nat.exists_eq_add_of_le' s.sixteen_le_stepBudget
  rw [moveOn_eq_goOn, closeLeaf, houter, hk]
  exact hcloses.comes hs hg hdepth none [] (.inl (by simp)) (n := k + 14)

/-- A walk comes to where `P` is still to come, before these children. -/
def FollowsParts (s : Schema) (root : GroupId) (P : Prop) (ns : List QName) (bound : Nat)
    (violations : List Violation) (r : Except Failure (List Violation) × Walk) : Prop :=
  ∃ more w, r = (.ok (violations ++ more), w) ∧ w.partsTodo s ≤ bound ∧
    w.ThroughParts s root ns ∧ (P ↔ more = [] ∧ PartsResidual s root w ns)

theorem ComesParts.follows {P : List QName → Prop} {Q : Prop} {bound bound' : Nat}
    {violations : List Violation} {r : Except Failure (List Violation) × Walk}
    (h : ComesParts s root P bound violations r) (hbound : bound ≤ bound') (hQ : Q ↔ P ns) :
    FollowsParts s root Q ns bound' violations r := by
  obtain ⟨more, w, hr, htodo, hthrough⟩ := h
  exact ⟨more, w, hr, Nat.le_trans htodo hbound, (hthrough ns).1, hQ.trans (hthrough ns).2⟩

/-- A child of an element is one occurrence. -/
theorem OnElement.take {n : QName} (h : w.OnElement s root m) (hs : s.Built)
    (hg : s.IsOnceThrough root) (hdepth : 1 ≤ s.limits.maxModelDepth) (hn : s.passes m n = true) :
    FollowsParts s root (PartsResidual s root w (n :: ns)) ns (w.partsTodo s) []
      (w.advance s true) := by
  obtain ⟨done, hparts, hmatched⟩ := h.parts
  have hne : (s.group w.here.group).compositor = .sequence := by
    rw [hparts.group, hg.compositor]
  have hres : PartsResidual s root w (n :: ns) ↔
      s.Then (s.More m (w.count m + 1)) w.here.rest ns := by
    have htake : s.Then (s.More m (w.count m)) w.here.rest (n :: ns) ↔
        s.Then (s.More m (w.count m + 1)) w.here.rest ns := by
      apply Components.then_take
      · exact hg.not_row hs hparts.members (Components.mem_leavesOf_self h.leaf) hn
      · exact fun u => Components.more_leaf_take h.leaf hn
    rw [h.residual_iff, htake]
    simp
  have hcount : ∀ x, x ≠ m → (w.take m).count x = w.count x := by
    intro x hx
    rw [count_take, if_neg hx]
  have hcountM : (w.take m).count m = w.count m + 1 := by rw [count_take, if_pos rfl]
  have hparts' : (w.take m).Parts s root (w.take m).here done (m :: w.here.rest) := by
    refine ⟨hparts.group, hparts.members, ?_, hparts.ceiling_root, ?_, hparts.ceilings, ?_⟩
    · rw [hcount]
      · exact hparts.count_root
      · rintro rfl
        cases h.leaf
    · intro x hx
      rw [hcount]
      · exact hparts.le_max x hx
      · intro heq
        have hnodup := hparts.members ▸ hs.forest.nodup root
        rw [List.nodup_append] at hnodup
        exact hnodup.2.2 x hx _ (List.mem_cons_self ..) heq
    · intro g' hg' x hx
      rw [hcount]
      · exact hparts.fresh g' hg' x hx
      · intro heq
        have hself := Components.mem_leavesOf_self (c := s.toComponents) h.leaf
        exact hg.not_mem_leavesOf hs hparts.members hself (.group g')
          (List.mem_append_right _ hg') (heq ▸ hx)
  have hmatched' : (w.take m).here.matched = true → ∃ x ∈ done ++ [m], 0 < (w.take m).count x :=
    fun _ => ⟨m, by simp, by omega⟩
  by_cases hover : ∀ n ∈ (s.occurs m).max, w.count m + 1 < n.toNat
  · have hon : (w.take m).OnElement s root m := by
      refine ⟨h.current, h.outer, h.leaf, ?_, ?_, done, hparts', hmatched'⟩
      · rw [hcountM]
        exact hover
      · intro hno
        cases hno
    refine ⟨[], w.take m, ?_, ?_, .element hon, ?_⟩
    · exact advance_stay h.current (by rw [hne]; simp) (Occurs.isOver_eq_false_iff.2 hover)
    · rw [hon.todo_eq, h.todo_eq]
      exact Nat.le_refl _
    · rw [hres, hon.residual_iff, hcountM]
      simp [Walk.take]
  · -- the element is full
    have hfull : (s.occurs m).isOver (w.count m + 1) = true := by
      by_contra hno
      exact hover (Occurs.isOver_eq_false_iff.1 (by simpa using hno))
    have hmax : ∀ n ∈ (s.occurs m).max, (w.take m).count m ≤ n.toNat := by
      rw [hcountM]
      exact h.not_over
    have hadvance : w.advance s true = (w.take m).moveOn s m := by
      apply advance_full h.current (by rw [hne]; simp) hfull
      intro hchoice
      rw [hne] at hchoice
      cases hchoice
    have hcomes := OnElement.comes_end (w := w.take m) hs hg hdepth h.outer h.leaf hmax hparts'
      hmatched'
    rw [hadvance]
    apply hcomes.follows
    · rw [h.todo_eq]
      exact Nat.le_succ _
    · rw [hres, hcountM, partEnds_iff (Q := s.More m (w.count m + 1))]
      · simp [Walk.take]
      · exact fun u v _ => Components.more_over (Occurs.isOver_iff.1 hfull)
      · exact h.not_over

/-- An element that the next child does not match ends. -/
theorem OnElement.pass (h : w.OnElement s root m) (hs : s.Built) (hg : s.IsOnceThrough root)
    (hdepth : 1 ≤ s.limits.maxModelDepth) (hn : ∀ n ∈ ns.head?, s.passes m n = false) :
    FollowsParts s root (PartsResidual s root w ns) ns (w.here.rest.length * partBound s) []
      (w.moveOn s m) := by
  obtain ⟨done, hparts, hmatched⟩ := h.parts
  have hmax : ∀ n ∈ (s.occurs m).max, w.count m ≤ n.toNat :=
    fun n hn => Nat.le_of_lt (h.not_over n hn)
  apply (OnElement.comes_end hs hg hdepth h.outer h.leaf hmax hparts hmatched).follows (Nat.le_refl _)
  rw [h.residual_iff, partEnds_iff (Q := s.More m (w.count m))]
  · constructor
    · intro hcases
      rcases hcases with hthen | ⟨hnil, hno, hmin⟩
      · exact .inl hthen
      · exact .inr ⟨hnil, hno, h.unmatched hno, hmin⟩
    · intro hcases
      rcases hcases with hthen | ⟨hnil, hno, -, hmin⟩
      · exact .inl hthen
      · exact .inr ⟨hnil, hno, hmin⟩
  · intro u v heq
    apply Components.more_leaf_skip h.leaf
    exact fun n hhead => hn n (mem_head?_of_append heq hhead)
  · exact hmax

/-! ## Children of groups -/

/-- The end of a group of a sequence of parts. -/
theorem Nested.closes (h : w.Nested s root f g) (hs : s.Built) (hg : s.IsOnceThrough root)
    (hmax : ∀ n ∈ (s.group g).occurs.max, w.count (.group g) ≤ n.toNat)
    (hreach : w.reach (.group g) = w.count (.group g)) (outer : List Frame) :
    ClosesPart s root f (.group g) (w.count (.group g))
      (closeItem s [] (.group g) { w with here := f, outer := outer }) := by
  obtain ⟨done, hparts, hmatched⟩ := h.parts
  apply hparts.closes hs hg hmax hreach
  intro hyes
  obtain ⟨x, hx, hpos⟩ := hmatched hyes
  exact ⟨x, List.mem_append_left _ hx, hpos⟩

theorem Nested.closeGroup_eq (h : w.Nested s root f g) (hhere : w.here.group = g) :
    w.closeGroup s = closeItem s [] (.group g) { w with here := f, outer := [f] } := by
  have hsame : ({ w with here := f, outer := [f] } : Walk) = { w with here := f } := by
    rw [← h.outer]
  rw [hsame, ← hhere]
  unfold closeGroup
  rw [h.outer]
  rfl

/-- A group that has reached its maximum is left. -/
theorem run_over (hover : w.isGroupOver s = true) (last : Option Member)
    (violations : List Violation) (n : Nat) :
    Passage.run s (n + 1) ⟨w, last, violations⟩ = goOn s n last violations [] (w.closeGroup s) := by
  have hstep : Passage.step s ⟨w, last, violations⟩ = _ := Passage.step_of_over hover
  rw [Passage.run, hstep]
  cases w.closeGroup s with
  | mk missing w' =>
      cases missing with
      | none => rfl
      | some missing =>
          simp only [Passage.afterClose, goOn, ite_self, List.append_nil]

/-- A choice in which nothing more matches is left, and reported if it is missing. -/
theorem run_leaveUnmatched (hne : (s.group w.here.group).compositor ≠ .all)
    (hexpected : w.expected s ≠ []) {last : Option Member} {violations : List Violation}
    (hstep : Passage.step s ⟨w, last, violations⟩ =
      Passage.leaveUnmatched s ⟨w, none, violations⟩) (n : Nat) :
    ∃ report, report ≠ [] ∧ Passage.run s (n + 1) ⟨w, last, violations⟩ =
      goOn s n none violations report (w.closeGroup s) := by
  have hempty : (w.expected s).isEmpty = false := by
    simpa using hexpected
  refine ⟨[⟨w.hereMember, (w.closeGroup s).2.count w.hereMember, w.expected s⟩], by simp, ?_⟩
  rw [Passage.run, hstep]
  simp only [Passage.leaveUnmatched, hne, decide_false, Bool.false_and, Bool.false_eq_true, if_false,
    hempty, Bool.not_false, Bool.and_true]
  cases w.closeGroup s with
  | mk missing w' =>
      cases missing with
      | none => rfl
      | some missing =>
          cases missing with
          | false => simp [goOn]
          | true => simp [goOn, Passage.report]

theorem Nested.comes_over (h : w.Nested s root f g) (hs : s.Built) (hg : s.IsOnceThrough root)
    (hdepth : 1 ≤ s.limits.maxModelDepth) (hhere : w.here.group = g)
    (hreach : w.reach w.hereMember = w.count (.group g))
    (hmax : ∀ n ∈ (s.group g).occurs.max, w.count (.group g) ≤ n.toNat)
    (hover : ¬∀ n ∈ (s.group g).occurs.max, w.count (.group g) < n.toNat) (last : Option Member)
    (violations : List Violation) {n : Nat} :
    ComesParts s root (PartEnds s root f (.group g) (w.count (.group g)))
      (f.rest.length * partBound s) violations
      (settle s (Passage.run s (n + 3) ⟨w, last, violations⟩)) := by
  have hyes : w.isGroupOver s = true := by
    by_contra hno
    exact hover ((isGroupOver_iff hhere hreach).1 (by simpa using hno))
  have hmin : (s.occurs (.group g)).min.toNat ≤ w.count (.group g) := by
    obtain ⟨j, hj, hle⟩ : ∃ j ∈ (s.group g).occurs.max, j.toNat ≤ w.count (.group g) := by
      simpa using hover
    exact Nat.le_trans (hs.min_le_max (.group g) j hj) hle
  have hreach' : w.reach (.group g) = w.count (.group g) := by
    rw [← hreach, hereMember, hhere]
  have hcloses := h.closes hs hg hmax hreach' [f]
  rw [← h.closeGroup_eq hhere] at hcloses
  rw [run_over hyes]
  exact hcloses.comes hs hg hdepth last violations (.inr hmin)

/-- A child of a nested choice is a repetition of it. -/
theorem Nested.take_choice {n : QName} (h : w.Nested s root f g) (hc : s.IsFlatChoice g)
    (hon : w.OnAlternative s g (n :: ns) m) (hs : s.Built) (hg : s.IsOnceThrough root)
    (hdepth : 1 ≤ s.limits.maxModelDepth) (hn : s.passes m n = true) :
    FollowsParts s root (PartsResidual s root w (n :: ns)) ns
      (f.rest.length * partBound s + 2 * (s.group g).members.length) [] (w.advance s true) := by
  obtain ⟨done, hparts, -⟩ := h.parts
  obtain ⟨before, hmembers, -⟩ := hon.members
  have hm : m ∈ (s.group g).members := by simp [hmembers]
  have hmaxG := (hg.parts (.group g) (by simp [hparts.members])).2
  obtain ⟨w₁, hclose, hstays, hinside, hrest, hcount⟩ := hon.close_taken hc hmaxG
  have hnested := h.stays hs hg hstays hinside.ceilings
  have hres : PartsResidual s root w (n :: ns) ↔
      s.Then (s.More (.group g) (w₁.count (.group g))) f.rest ns := by
    have htake : s.Then (s.More (.group g) (w.count (.group g))) f.rest (n :: ns) ↔
        s.Then (s.More (.group g) (w₁.count (.group g))) f.rest ns := by
      rw [hcount]
      apply Components.then_take
      · exact hg.not_row hs hparts.members (m := .group g) hm hn
      · exact fun u => hc.more_take hm hn
    rw [h.residual_iff hon.inside.here hon.current, hon.inside.matched, singleRest_unmatched, htake]
    simp
  have hmax : ∀ n ∈ (s.group g).occurs.max, w₁.count (.group g) ≤ n.toNat := by
    rw [hcount]
    exact hon.not_over
  obtain ⟨k, hk⟩ := Nat.exists_eq_add_of_le' s.sixteen_le_stepBudget
  rw [hon.advance_eq hc, moveOn_of_some hclose, if_neg (by simp), hk]
  by_cases hover : ∀ n ∈ (s.group g).occurs.max, w₁.count (.group g) < n.toNat
  · obtain ⟨m', ms, hcons⟩ := List.exists_cons_of_ne_nil hc.nonempty
    obtain ⟨w', hrun, hstays', hon', hrest', hcount'⟩ := hinside.run_placed hc ns none [] hover
      (hcons.trans (List.nil_append _).symm) (hrest.trans hcons) (by simp) (n := k + 15)
    have hnested' := hnested.stays hs hg hstays' hon'.inside.ceilings
    refine ⟨[], w', ?_, ?_, .choice hnested' hc hon', ?_⟩
    · rw [hrun]
      rfl
    · rw [hnested'.todo_eq hon'.inside.here hon'.current, singleTodo, hon'.inside.matched, hrest']
      rw [hcons]
      simp
      omega
    · rw [hres, hnested'.residual_iff hon'.inside.here hon'.current, hon'.inside.matched,
        singleRest_unmatched, hcount', hcount]
      simp
  · apply (hnested.comes_over hs hg hdepth hinside.here hinside.reach_eq hmax hover none []
      (n := k + 13)).follows (Nat.le_add_right ..)
    rw [hres, partEnds_iff (Q := s.More (.group g) (w₁.count (.group g)))]
    · simp [hcount]
    · have hfull : ∃ n ∈ (s.group g).occurs.max, n.toNat ≤ w₁.count (.group g) := by
        simpa using hover
      exact fun u v _ => Components.more_over (m := .group g) hfull
    · exact hmax

/-- An alternative of a nested choice that the next child does not match is passed. -/
theorem Nested.pass_choice (h : w.Nested s root f g) (hc : s.IsFlatChoice g)
    (hon : w.OnAlternative s g ns m) (hs : s.Built) (hg : s.IsOnceThrough root)
    (hdepth : 1 ≤ s.limits.maxModelDepth) (hn : ∀ n ∈ ns.head?, s.passes m n = false) :
    FollowsParts s root (PartsResidual s root w ns) ns
      (f.rest.length * partBound s + w.here.rest.length) [] (w.moveOn s m) := by
  obtain ⟨before, hmembers, hskip⟩ := hon.members
  have hskip' : ∀ x ∈ before ++ [m], ∀ n ∈ ns.head?, s.passes x n = false := by
    intro x hx
    rcases List.mem_append.1 hx with hx | hx
    · exact hskip x hx
    · rw [List.mem_singleton.1 hx]
      exact hn
  have hmembers' : (s.group g).members = (before ++ [m]) ++ w.here.rest := by
    rw [hmembers]
    simp
  have hres := h.residual_iff hon.inside.here hon.current ns
  rw [hon.inside.matched, singleRest_unmatched] at hres
  obtain ⟨k, hk⟩ := Nat.exists_eq_add_of_le' s.sixteen_le_stepBudget
  rw [moveOn_of_some (hon.close_passed hc), if_neg (by simp), hk]
  cases hrest : w.here.rest with
  | nil =>
      have hall : (s.group g).members = before ++ [m] := by
        rw [hmembers', hrest, List.append_nil]
      have hexpected : w.expected s ≠ [] := by
        have hm : m ∈ (s.group w.here.group).members := by simp [hon.inside.here, hmembers]
        have hleaf := hc.distinct.isGroup_eq_false (m := m) (by simp [hmembers])
        apply List.ne_nil_of_mem (a := m)
        unfold expected
        rw [List.mem_flatMap]
        refine ⟨m, List.mem_filter.2 ⟨hm, by simp [hon.inside.here, hc.compositor]⟩, ?_⟩
        cases m with
        | group sub => cases hleaf
        | element e => exact List.mem_singleton.2 rfl
        | wildcard x => exact List.mem_singleton.2 rfl
      obtain ⟨report, hreport, hrun⟩ := run_leaveUnmatched (s := s)
        (by rw [hon.inside.here, hc.compositor]; simp) hexpected
        (hon.inside.step_end hc hon.not_over hrest none []) (k + 15)
      have hmax : ∀ n ∈ (s.group g).occurs.max, w.count (.group g) ≤ n.toNat :=
        fun n hn => Nat.le_of_lt (hon.not_over n hn)
      have hreach : w.reach (.group g) = w.count (.group g) := by
        rw [← hon.inside.reach_eq, hereMember, hon.inside.here]
      have hcloses := h.closes hs hg hmax hreach [f]
      rw [← h.closeGroup_eq hon.inside.here] at hcloses
      rw [hrun]
      apply (hcloses.comes hs hg hdepth none [] (.inl hreport) (n := k + 13)).follows (Nat.le_add_right ..)
      rw [hres, partEnds_iff (Q := s.More (.group g) (w.count (.group g)))]
      · simp only [true_and, and_assoc]
      · intro u v heq
        apply hc.more_skip
        rw [hall]
        exact fun x hx n hhead => hskip' x hx n (mem_head?_of_append heq hhead)
      · exact hmax
  | cons m' ms =>
      obtain ⟨w', hrun, hstays, hon', hrest', hcount⟩ := hon.inside.run_placed hc ns none []
        hon.not_over (hrest ▸ hmembers') hrest hskip' (n := k + 15)
      have hnested' := h.stays hs hg hstays hon'.inside.ceilings
      refine ⟨[], w', ?_, ?_, .choice hnested' hc hon', ?_⟩
      · rw [hrun]
        rfl
      · rw [hnested'.todo_eq hon'.inside.here hon'.current, singleTodo, hon'.inside.matched, hrest']
        simp
        omega
      · rw [hres, hnested'.residual_iff hon'.inside.here hon'.current, hon'.inside.matched,
          singleRest_unmatched, hcount]
        simp

/-- From behind a member of a nested sequence the walk comes to the next one, or behind the
sequence. -/
theorem Nested.follows_behind {k : Nat} (h : w.Nested s root f g) (hc : s.IsFlatSequence g)
    (hbehind : w.BehindSingle s g k) (hs : s.Built) (hg : s.IsOnceThrough root)
    (hdepth : 1 ≤ s.limits.maxModelDepth) (hmax : ∀ n ∈ (s.group g).occurs.max, k < n.toNat)
    (ns : List QName) (violations : List Violation) {n : Nat} :
    FollowsParts s root (s.Then (s.RestThenMore g k w.here.rest) f.rest ns) ns
      (f.rest.length * partBound s + (w.here.rest.length + (s.group g).members.length)) violations
      (settle s (Passage.run s (n + 3) ⟨w, none, violations⟩)) := by
  obtain ⟨done, hparts, -⟩ := h.parts
  obtain ⟨hpart, hmaxG⟩ := hg.parts (.group g) (by simp [hparts.members])
  have hgroup := hbehind.count_group
  by_cases hover : ∀ n ∈ (s.group g).occurs.max, w.count (.group g) < n.toNat
  · obtain ⟨w', m', hrun, hnext⟩ :=
      hbehind.run_placed hc ns none violations hmaxG hover (n := n + 1)
    have hnested' := h.stays hs hg hnext.stays hnext.on.inside.ceilings
    refine ⟨[], w', ?_, ?_, .sequence hnested' hc hnext.on ?_, ?_⟩
    · rw [hrun, List.append_nil]
      rfl
    · rw [hnested'.todo_eq hnext.on.inside.here hnext.on.current]
      have := hnext.todo
      omega
    · intro hno
      rw [← (hnext.first hno).1]
      cases hpart with
      | element hm => cases hm
      | choice hchoice =>
          have hcompositor := hchoice.compositor
          rw [hc.compositor] at hcompositor
          cases hcompositor
      | sequence _ hrequired => exact hrequired
    · rw [hnested'.residual_iff hnext.on.inside.here hnext.on.current,
        Components.then_congr fun u v _ => hnext.rest_iff u]
      have hno : ¬(w'.here.matched = false ∧ f.matched = false ∧ w'.count (.group g) = 0) := by
        intro hno
        have hpos := (hnext.first hno.1).2
        omega
      simp [hno]
  · -- the bounds are reached, so that the last member was there
    have hrest : w.here.rest = [] := by
      by_contra hne
      rw [if_neg hne] at hgroup
      rw [hgroup] at hover
      exact hover hmax
    rw [if_pos hrest] at hgroup
    have hle : ∀ n ∈ (s.group g).occurs.max, w.count (.group g) ≤ n.toNat := by
      rw [hgroup]
      exact hmax
    have hfull : ∃ n ∈ (s.group g).occurs.max, n.toNat ≤ w.count (.group g) := by
      simpa using hover
    apply (h.comes_over hs hg hdepth hbehind.inside.here hbehind.inside.reach_eq hle hover none
      violations (n := n)).follows (Nat.le_add_right ..)
    rw [partEnds_iff (Q := s.RestThenMore g k w.here.rest)]
    · simp [hgroup]
    · intro u v _
      rw [hrest, Components.restThenMore_nil, ← hgroup]
      exact Components.more_over (m := .group g) hfull
    · exact hle

/-- A child of a nested sequence is followed to the next member, or behind the sequence. -/
theorem Nested.take_sequence {n : QName} (h : w.Nested s root f g) (hc : s.IsFlatSequence g)
    (hon : w.OnSingle s g (n :: ns) m) (hs : s.Built) (hg : s.IsOnceThrough root)
    (hdepth : 1 ≤ s.limits.maxModelDepth) (hn : s.passes m n = true) :
    FollowsParts s root (PartsResidual s root w (n :: ns)) ns
      (f.rest.length * partBound s + 2 * (s.group g).members.length) [] (w.advance s true) := by
  obtain ⟨done, hparts, -⟩ := h.parts
  obtain ⟨before, hmembers, -⟩ := hon.members
  have hm : m ∈ (s.group g).members := by simp [hmembers]
  obtain ⟨w₁, hclose, hstays, hbehind, hrest⟩ := hon.close_taken hc
  have hnested := h.stays hs hg hstays hbehind.inside.ceilings
  have hres : PartsResidual s root w (n :: ns) ↔
      s.Then (s.RestThenMore g (w.count (.group g)) w₁.here.rest) f.rest ns := by
    rw [h.residual_iff hon.inside.here hon.current, hrest, Components.then_take
      (hg.not_row hs hparts.members (m := .group g) hm hn) (fun u => hon.singleRest_take hc hn u)]
    simp
  obtain ⟨k, hk⟩ := Nat.exists_eq_add_of_le' s.sixteen_le_stepBudget
  rw [hon.advance_eq hc, moveOn_of_some hclose, if_neg (by simp), hk]
  obtain ⟨more, w', hr, htodo, hthrough, hiff⟩ :=
    hnested.follows_behind hc hbehind hs hg hdepth hon.not_over ns [] (n := k + 13)
  refine ⟨more, w', hr, ?_, hthrough, hres.trans hiff⟩
  have hlength : w₁.here.rest.length ≤ (s.group g).members.length := by
    rw [hrest, hmembers]
    simp
    omega
  omega

/-- A member of a repetition of a nested sequence is passed. It is missing if it must be there. -/
theorem Nested.pass_matched (h : w.Nested s root f g) (hc : s.IsFlatSequence g)
    (hon : w.OnSingle s g ns m) (hs : s.Built) (hg : s.IsOnceThrough root)
    (hdepth : 1 ≤ s.limits.maxModelDepth) (hmatched : w.here.matched = true)
    (hn : ∀ n ∈ ns.head?, s.passes m n = false) :
    FollowsParts s root (PartsResidual s root w ns) ns
      (f.rest.length * partBound s + (w.here.rest.length + (s.group g).members.length)) []
      (w.moveOn s m) := by
  obtain ⟨w₁, hclose, hstays, hbehind, hrest⟩ := hon.close_matched hc hmatched
  have hnested := h.stays hs hg hstays hbehind.inside.ceilings
  have hres : PartsResidual s root w ns ↔ (s.occurs m).isMissing 0 = false ∧
      s.Then (s.RestThenMore g (w.count (.group g)) w₁.here.rest) f.rest ns := by
    rw [h.residual_iff hon.inside.here hon.current, hrest, Components.then_congr fun u v heq =>
      hon.singleRest_matched hc hmatched fun n hhead => hn n (mem_head?_of_append heq hhead),
      Components.then_and]
    simp [hmatched]
  obtain ⟨k, hk⟩ := Nat.exists_eq_add_of_le' s.sixteen_le_stepBudget
  obtain ⟨more, w', hr, htodo, hthrough, hiff⟩ := hnested.follows_behind hc hbehind hs hg hdepth
    hon.not_over ns (if (s.occurs m).isMissing 0 then [⟨m, w.count m, [m]⟩] else []) (n := k + 13)
  refine ⟨(if (s.occurs m).isMissing 0 then [⟨m, w.count m, [m]⟩] else []) ++ more, w', ?_, ?_,
    hthrough, ?_⟩
  · rw [moveOn_of_some hclose, hk]
    exact hr
  · rw [hrest] at htodo
    exact htodo
  · rw [hres, hiff, List.append_eq_nil_iff]
    simp [and_assoc]

/-- A member of a nested sequence is passed before a repetition has begun. If it must be there, the
sequence is left. -/
theorem Nested.pass_unmatched (h : w.Nested s root f g) (hc : s.IsFlatSequence g)
    (hon : w.OnSingle s g ns m)
    (hrequired : ∃ x ∈ m :: w.here.rest, (s.occurs x).min.toNat ≠ 0) (hs : s.Built)
    (hg : s.IsOnceThrough root) (hdepth : 1 ≤ s.limits.maxModelDepth)
    (hmatched : w.here.matched = false) (hn : ∀ n ∈ ns.head?, s.passes m n = false) :
    FollowsParts s root (PartsResidual s root w ns) ns
      (f.rest.length * partBound s + w.here.rest.length) [] (w.moveOn s m) := by
  obtain ⟨before, hmembers, hpassed, -⟩ := hon.members
  have hleaf := hc.distinct.isGroup_eq_false (m := m) (by simp [hmembers])
  have hres := h.residual_iff hon.inside.here hon.current ns
  rw [hmatched, singleRest_unmatched] at hres
  obtain ⟨k, hk⟩ := Nat.exists_eq_add_of_le' s.sixteen_le_stepBudget
  by_cases hzero : (s.occurs m).min.toNat = 0
  · obtain ⟨x, hx, hxmin⟩ := hrequired
    have hxrest : x ∈ w.here.rest := by
      rcases List.mem_cons.1 hx with heq | hx
      · rw [heq] at hxmin
        exact absurd hzero hxmin
      · exact hx
    have hmembers' : (s.group g).members = (before ++ [m]) ++ w.here.rest := by
      rw [hmembers]
      simp
    obtain ⟨m', ms, hcons⟩ := List.exists_cons_of_ne_nil (List.ne_nil_of_mem hxrest)
    obtain ⟨w', hrun, hstays, hon', hhere, hcount⟩ := hon.inside.run_placed hc ns none []
      hon.not_over (hcons ▸ hmembers') hcons (fun _ => (hpassed hmatched).snoc hzero hn)
      (fun hno => by rw [hmatched] at hno; cases hno) (n := k + 15)
    have hnested' := h.stays hs hg hstays hon'.inside.ceilings
    rw [moveOn_of_some (hon.close_optional hc hmatched hzero), if_neg (by simp), hk]
    refine ⟨[], w', ?_, ?_, .sequence hnested' hc hon' ?_, ?_⟩
    · rw [hrun]
      rfl
    · rw [hnested'.todo_eq hon'.inside.here hon'.current, singleTodo, hhere, hmatched, hcons]
      simp
      omega
    · intro _
      rw [hhere]
      exact ⟨x, hcons ▸ hxrest, hxmin⟩
    · rw [hres, hnested'.residual_iff hon'.inside.here hon'.current, hhere, hcount, hmatched,
        singleRest_unmatched]
      simp
  · have hempty : s.isEmptiable m = false := by
      by_contra hno
      exact hzero ((s.isEmptiable_leaf hleaf).1 (by simpa using hno))
    have hmax : ∀ n ∈ (s.group g).occurs.max, w.count (.group g) ≤ n.toNat :=
      fun n hn => Nat.le_of_lt (hon.not_over n hn)
    have hreach : w.reach (.group g) = w.count (.group g) := by
      rw [← hon.inside.reach_eq, hereMember, hon.inside.here]
    have hclose : w.closeLeaf s m =
        closeItem s [] (.group g) { w with here := f, outer := [f] } := by
      rw [closeLeaf, h.outer, closeItem_unmatched (by rw [hon.inside.here, hc.compositor]) hmatched
        hon.count_eq hempty, hereMember, hon.inside.here]
    have hcloses := h.closes hs hg hmax hreach [f]
    rw [moveOn_eq_goOn, hclose, hk]
    apply (hcloses.comes hs hg hdepth none [] (.inl (by simp)) (n := k + 14)).follows
      (Nat.le_add_right ..)
    rw [hres, partEnds_iff (Q := s.More (.group g) (w.count (.group g)))]
    · simp only [true_and, and_assoc]
    · exact fun u v heq => hon.more_required hc hmatched hzero heq hn _
    · exact hmax

/-! ## Whole contents -/

theorem ThroughParts.nil (h : w.ThroughParts s root ns) : w.ThroughParts s root [] := by
  cases h with
  | ended h => exact .ended h
  | element h => exact .element h
  | choice h hc hon =>
      obtain ⟨before, hmembers, -⟩ := hon.members
      exact .choice h hc ⟨hon.inside, hon.current, hon.not_over, before, hmembers, by simp⟩
  | sequence h hc hon hrequired =>
      obtain ⟨before, hmembers, -, hmatched⟩ := hon.members
      exact .sequence h hc ⟨hon.inside, hon.current, hon.count_eq, hon.not_over, before, hmembers,
        fun _ => PassedBy.nil before, hmatched⟩ hrequired

theorem recognizes_parts (hs : s.Built) (hg : s.IsOnceThrough root)
    (hdepth : 1 ≤ s.limits.maxModelDepth) :
    Recognizes s (fun w ns => w.ThroughParts s root ns) (PartsResidual s root)
      (fun w => w.partsTodo s) where
  ended := by
    intro w ns _ hended
    simp [PartsResidual, hended]
  take := by
    intro w m n ns hthrough hcurrent hn
    have hfollows : ∃ bound, FollowsParts s root (PartsResidual s root w (n :: ns)) ns bound []
        (w.advance s true) := by
      cases hthrough with
      | ended h =>
          rw [h] at hcurrent
          cases hcurrent
      | @element m' h =>
          obtain rfl : m' = m := Option.some.inj (h.current.symm.trans hcurrent)
          exact ⟨_, h.take hs hg hdepth hn⟩
      | @choice f g m' h hc hon =>
          obtain rfl : m' = m := Option.some.inj (hon.current.symm.trans hcurrent)
          exact ⟨_, h.take_choice hc hon hs hg hdepth hn⟩
      | @sequence f g m' h hc hon _ =>
          obtain rfl : m' = m := Option.some.inj (hon.current.symm.trans hcurrent)
          exact ⟨_, h.take_sequence hc hon hs hg hdepth hn⟩
    obtain ⟨bound, more, w', hr, -, hthrough', hiff⟩ := hfollows
    exact ⟨more, w', hr, hthrough', hiff⟩
  pass := by
    intro w m ns hthrough hcurrent hn
    have hfollows : ∃ bound, bound < w.partsTodo s ∧
        FollowsParts s root (PartsResidual s root w ns) ns bound [] (w.moveOn s m) := by
      cases hthrough with
      | ended h =>
          rw [h] at hcurrent
          cases hcurrent
      | @element m' h =>
          obtain rfl : m' = m := Option.some.inj (h.current.symm.trans hcurrent)
          refine ⟨_, ?_, h.pass hs hg hdepth hn⟩
          rw [h.todo_eq]
          exact Nat.lt_succ_self _
      | @choice f g m' h hc hon =>
          obtain rfl : m' = m := Option.some.inj (hon.current.symm.trans hcurrent)
          refine ⟨_, ?_, h.pass_choice hc hon hs hg hdepth hn⟩
          rw [h.todo_eq hon.inside.here hon.current, singleTodo]
          omega
      | @sequence f g m' h hc hon hrequired =>
          obtain rfl : m' = m := Option.some.inj (hon.current.symm.trans hcurrent)
          cases hmatched : w.here.matched with
          | true =>
              refine ⟨_, ?_, h.pass_matched hc hon hs hg hdepth hmatched hn⟩
              rw [h.todo_eq hon.inside.here hon.current, singleTodo, if_pos hmatched]
              omega
          | false =>
              refine ⟨_, ?_, h.pass_unmatched hc hon (hrequired hmatched) hs hg hdepth hmatched hn⟩
              rw [h.todo_eq hon.inside.here hon.current, singleTodo]
              omega
    obtain ⟨bound, hbound, more, w', hr, htodo, hthrough', hiff⟩ := hfollows
    rw [advance_pass hcurrent]
    exact ⟨more, w', hr, fun _ => hthrough', hthrough'.nil, by omega, hiff⟩
  budget := by
    intro w ns hthrough
    -- there are no more leaves than `partBound` for every part
    have hbudget : ∀ (f : Frame) (done : List Member) (m : Member) (j : Nat),
        (s.group root).members = done ++ m :: f.rest → j ≤ partBound s →
        f.rest.length * partBound s + j ≤ s.stepBudget := by
      intro f done m j hmembers hj
      have hlength := hs.forest.length_members_le root
      have hrest : f.rest.length + 1 ≤ s.particles.length := by
        rw [hmembers] at hlength
        simp at hlength
        omega
      have hprod := s.mul_le_stepBudget (i := f.rest.length + 1) (j := partBound s) (by omega)
        (by rw [partBound]; omega)
      rw [Nat.succ_mul] at hprod
      omega
    cases hthrough with
    | ended h => simp [partsTodo, h]
    | element h =>
        obtain ⟨done, hparts, -⟩ := h.parts
        rw [h.todo_eq]
        exact hbudget w.here done _ 1 hparts.members (by rw [partBound]; omega)
    | @choice f g m' h hc hon =>
        obtain ⟨done, hparts, -⟩ := h.parts
        obtain ⟨before, hmembers, -⟩ := hon.members
        rw [h.todo_eq hon.inside.here hon.current]
        apply hbudget f done _ _ hparts.members
        apply singleTodo_le_partBound hs
        rw [hmembers]
        simp
        omega
    | @sequence f g m' h hc hon _ =>
        obtain ⟨done, hparts, -⟩ := h.parts
        obtain ⟨before, hmembers, -⟩ := hon.members
        rw [h.todo_eq hon.inside.here hon.current]
        apply hbudget f done _ _ hparts.members
        apply singleTodo_le_partBound hs
        rw [hmembers]
        simp
        omega

/-- A walk that begins with a group inside a sequence stands on the first leaf of that group. -/
theorem start_of_group {v : Version} {rest ms : List Member}
    (hne : (s.group root).compositor ≠ .all) (hitems : items s v root = .group g :: rest)
    (hne' : (s.group g).compositor ≠ .all) (hitems' : items s v g = m :: ms)
    (hdepth : 1 ≤ s.limits.maxModelDepth) (hmembers : (s.group g).members ≠ [])
    (hm : m.isGroup = false) : Walk.start s root v =
      .ok ⟨root, v, ⟨g, ms, false⟩, [⟨root, rest, false⟩], Tally.zero, Tally.zero, some m⟩ := by
  have hnext : nextItem s ⟨root, v, ⟨root, .group g :: rest, false⟩, [], Tally.zero, Tally.zero,
      none⟩ = (some (.group g), ⟨root, v, ⟨root, rest, false⟩, [], Tally.zero, Tally.zero, none⟩) :=
    nextItem_of_ne_all hne
  have hnext' : nextItem s ⟨root, v, ⟨g, m :: ms, false⟩, [⟨root, rest, false⟩], Tally.zero,
      Tally.zero, none⟩ = (some m, ⟨root, v, ⟨g, ms, false⟩, [⟨root, rest, false⟩], Tally.zero,
        Tally.zero, none⟩) :=
    nextItem_of_ne_all hne'
  have henter : enter s ⟨root, v, ⟨root, rest, false⟩, [], Tally.zero, Tally.zero, none⟩ g =
      .ok ⟨root, v, ⟨g, m :: ms, false⟩, [⟨root, rest, false⟩], Tally.zero, Tally.zero, none⟩ := by
    have hnot : s.limits.isModelDepthExceeded 1 = false := decide_eq_false (by omega)
    unfold enter
    simp only [List.length_nil, Nat.zero_add, hnot, hitems']
    rfl
  have hempty : (s.group g).members.isEmpty = false := List.isEmpty_eq_false_iff.2 hmembers
  obtain ⟨k, hk⟩ := Nat.exists_eq_add_of_le' s.sixteen_le_stepBudget
  have hseek : seekFirst s s.stepBudget
      ⟨root, v, ⟨root, .group g :: rest, false⟩, [], Tally.zero, Tally.zero, none⟩ =
        (.ok (), ⟨root, v, ⟨g, ms, false⟩, [⟨root, rest, false⟩], Tally.zero, Tally.zero, some m⟩) := by
    rw [hk, seekFirst, hnext]
    simp only [hempty, Bool.false_eq_true, if_false, henter]
    rw [seekFirst, hnext']
    cases m with
    | group sub => cases hm
    | element e => rfl
    | wildcard x => rfl
  simp only [Walk.start, restart, clear, hitems, hseek]

theorem start_of_nil {v : Version} (hne : (s.group root).compositor ≠ .all)
    (hitems : items s v root = []) : Walk.start s root v =
      .ok ⟨root, v, ⟨root, [], false⟩, [], Tally.zero, Tally.zero, none⟩ := by
  have hnext : nextItem s ⟨root, v, ⟨root, [], false⟩, [], Tally.zero, Tally.zero, none⟩ =
      (none, ⟨root, v, ⟨root, [], false⟩, [], Tally.zero, Tally.zero, none⟩) :=
    nextItem_of_ne_all hne
  obtain ⟨k, hk⟩ := Nat.exists_eq_add_of_le' s.sixteen_le_stepBudget
  have hseek : seekFirst s s.stepBudget
      ⟨root, v, ⟨root, [], false⟩, [], Tally.zero, Tally.zero, none⟩ =
        (.ok (), ⟨root, v, ⟨root, [], false⟩, [], Tally.zero, Tally.zero, none⟩) := by
    rw [hk, seekFirst, hnext]
    rfl
  simp only [Walk.start, restart, clear, hitems, hseek]

/-- At the start the parts of a sequence are still to come. -/
theorem start_parts (hg : s.IsOnceThrough root) (hdepth : 1 ≤ s.limits.maxModelDepth) :
    ∃ w, Walk.start s root s.version = .ok w ∧ ∀ ns, w.ThroughParts s root ns ∧
      (PartsResidual s root w ns ↔ s.Row s.occurs (s.group root).members ns ∨
        ns = [] ∧ (s.group root).occurs.min.toNat = 0) := by
  have hne : (s.group root).compositor ≠ .all := by
    rw [hg.compositor]
    simp
  have hitems : items s s.version root = (s.group root).members :=
    items_of_ne_all hne (by rw [hg.max_one]; decide)
  cases hmembers : (s.group root).members with
  | nil =>
      refine ⟨_, start_of_nil hne (hitems.trans hmembers), fun ns => ⟨.ended rfl, ?_⟩⟩
      rw [Components.row_nil_iff]
      simp only [PartsResidual]
      constructor
      · exact .inl
      · intro hcases
        rcases hcases with hnil | hnil
        · exact hnil
        · exact hnil.1
  | cons m rest =>
      obtain ⟨hpart, hmax⟩ := hg.parts m (by simp [hmembers])
      have hparts : ∀ w : Walk, w.counts = Tally.zero → w.ceilings = Tally.zero →
          w.Parts s root ⟨root, rest, false⟩ [] (m :: rest) := by
        intro w hcounts hceilings
        have hzero : ∀ x, w.count x = 0 := by
          intro x
          rw [count, hcounts]
          rfl
        refine ⟨rfl, hmembers, hzero _, ?_, by simp, ?_, fun _ _ x _ => hzero x⟩
        · rw [hceilings]
          rfl
        · intro l _
          rw [hceilings]
          rfl
      -- wherever the walk stands in the first part, nothing of it is there
      cases hpart with
      | element hm =>
          refine ⟨_, start_of_leaf hne (hitems.trans hmembers) hm, fun ns => ?_⟩
          have hon : OnElement s root
              ⟨root, s.version, ⟨root, rest, false⟩, [], Tally.zero, Tally.zero, some m⟩ m := by
            refine ⟨rfl, rfl, hm, ?_, fun _ => rfl, [], hparts _ rfl rfl, by simp⟩
            intro n hn
            exact Occurs.max_pos hmax hn
          refine ⟨.element hon, ?_⟩
          rw [hon.residual_iff, ← Components.then_words]
          simp [count]
      | @choice g hc =>
          have hne' : (s.group g).compositor ≠ .all := by
            rw [hc.compositor]
            simp
          obtain ⟨m', ms, hcons⟩ := List.exists_cons_of_ne_nil hc.nonempty
          have hitems' : items s s.version g = m' :: ms :=
            (items_of_ne_all hne' hmax).trans hcons
          have hleaf := hc.distinct.isGroup_eq_false (m := m') (by simp [hcons])
          refine ⟨_, start_of_group hne (hitems.trans hmembers) hne' hitems' hdepth hc.nonempty hleaf,
            fun ns => ?_⟩
          have hnested : Nested s root ⟨root, s.version, ⟨g, ms, false⟩, [⟨root, rest, false⟩],
              Tally.zero, Tally.zero, some m'⟩ ⟨root, rest, false⟩ g :=
            ⟨rfl, [], hparts _ rfl rfl, by simp⟩
          refine ⟨.choice hnested hc (m := m') ⟨⟨rfl, rfl, rfl, ?_, ?_⟩, rfl, ?_, [], hcons, by simp⟩,
            ?_⟩
          · simp
          · simp [count]
          · intro n hn
            exact Occurs.max_pos (o := (s.group g).occurs) hmax hn
          · rw [hnested.residual_iff rfl rfl, singleRest_unmatched, ← Components.then_words]
            simp [count]
      | @sequence g hc hrequired =>
          have hne' : (s.group g).compositor ≠ .all := by
            rw [hc.compositor]
            simp
          obtain ⟨x, hx, hxmin⟩ := hrequired
          obtain ⟨m', ms, hcons⟩ := List.exists_cons_of_ne_nil (List.ne_nil_of_mem hx)
          have hitems' : items s s.version g = m' :: ms :=
            (items_of_ne_all hne' hmax).trans hcons
          have hleaf := hc.distinct.isGroup_eq_false (m := m') (by simp [hcons])
          refine ⟨_, start_of_group hne (hitems.trans hmembers) hne' hitems' hdepth
            (List.ne_nil_of_mem hx) hleaf, fun ns => ?_⟩
          have hnested : Nested s root ⟨root, s.version, ⟨g, ms, false⟩, [⟨root, rest, false⟩],
              Tally.zero, Tally.zero, some m'⟩ ⟨root, rest, false⟩ g :=
            ⟨rfl, [], hparts _ rfl rfl, by simp⟩
          refine ⟨.sequence hnested hc (m := m') ⟨⟨rfl, rfl, ?_, ?_⟩, rfl, rfl, ?_, [], hcons, ?_, ?_⟩
            ?_, ?_⟩
          · simp
          · simp [count]
          · intro n hn
            exact Occurs.max_pos (o := (s.group g).occurs) hmax hn
          · exact fun _ => .inr (by simp)
          · simp
          · intro _
            rw [hcons] at hx
            exact ⟨x, hx, hxmin⟩
          · rw [hnested.residual_iff rfl rfl, singleRest_unmatched, ← Components.then_words]
            simp [count]

end Walk

/-- A sequence of parts that occurs once admits one word of each part after the other, or nothing if
it need not occur. -/
theorem Schema.once_through_exact {s : Schema} {root : GroupId} (hs : s.Built)
    (hg : s.IsOnceThrough root) (hdepth : 1 ≤ s.limits.maxModelDepth) (names : List QName) :
    ∃ issues, s.issues root names = .ok issues ∧ (issues = [] ↔
      s.Row s.occurs (s.group root).members names ∨
        names = [] ∧ (s.group root).occurs.min = 0) := by
  obtain ⟨w, hstart, hthrough⟩ := Walk.start_parts hg hdepth
  obtain ⟨issues, hissues, hiff⟩ := Schema.issues_iff_of_recognizes
    (Walk.recognizes_parts hs hg hdepth) hstart (hthrough names).1
  refine ⟨issues, hissues, ?_⟩
  rw [hiff, (hthrough names).2, ← UInt32.toNat_inj]
  rfl

/-- One or two `a`, at least one of `b` and `c`, and up to two `e` behind a `d` or none. -/
def partsSample : Components :=
  (((Components.withElements .v10 [("a", ⟨1, some 2⟩), ("b", .once), ("c", .once), ("d", .optional),
    ("e", .once)]).withGroup .choice .oneOrMore [.element ⟨1⟩, .element ⟨2⟩]).withGroup .sequence
      ⟨0, some 2⟩ [.element ⟨3⟩, .element ⟨4⟩]).withGroup .sequence .optional
        [.element ⟨0⟩, .group ⟨0⟩, .group ⟨1⟩]

theorem once_through_exact_sample : partsSample.schema.issues ⟨2⟩
    [.plain "a", .plain "c", .plain "b", .plain "e"] = .ok [] := by
  have hs : partsSample.schema.Built :=
    ((((Components.assembled_withElements ..).withGroup ..).withGroup ..).withGroup ..).built rfl
  have hchoice : partsSample.schema.IsFlatChoice ⟨0⟩ :=
    ⟨rfl, by decide +kernel, ⟨[⟨1⟩, ⟨2⟩], rfl, by decide +kernel⟩, by decide +kernel⟩
  have hsequence : partsSample.schema.IsFlatSequence ⟨1⟩ := by
    refine ⟨rfl, ?_, ⟨[⟨3⟩, ⟨4⟩], rfl, by decide +kernel⟩⟩
    unfold Components.Single
    decide +kernel
  have hmembers : (partsSample.schema.group ⟨2⟩).members =
      [.element ⟨0⟩, .group ⟨0⟩, .group ⟨1⟩] := rfl
  have hg : partsSample.schema.IsOnceThrough ⟨2⟩ := by
    refine ⟨rfl, rfl, ?_, ⟨[⟨0⟩, ⟨1⟩, ⟨2⟩, ⟨3⟩, ⟨4⟩], by decide +kernel, by decide +kernel⟩⟩
    intro m hm
    rw [hmembers] at hm
    simp only [List.mem_cons, List.not_mem_nil, or_false] at hm
    rcases hm with rfl | rfl | rfl
    · exact ⟨.element rfl, by decide +kernel⟩
    · exact ⟨.choice hchoice, by decide +kernel⟩
    · exact ⟨.sequence hsequence ⟨.element ⟨4⟩, by decide +kernel⟩, by decide +kernel⟩
  obtain ⟨issues, hissues, hiff⟩ := Schema.once_through_exact hs hg (by decide +kernel)
    [.plain "a", .plain "c", .plain "b", .plain "e"]
  have ha : partsSample.schema.Words partsSample.schema.occurs (.element ⟨0⟩) [.plain "a"] :=
    .intro (n := 1) (by decide +kernel)
      ((Components.times_leaf_iff rfl).2 ⟨rfl, by decide +kernel⟩)
  have hcb : partsSample.schema.Words partsSample.schema.occurs (.group ⟨0⟩)
      [.plain "c", .plain "b"] :=
    .intro (n := 2) (by decide +kernel) (hchoice.times_iff.2 ⟨rfl, by decide +kernel⟩)
  have he : partsSample.schema.Words partsSample.schema.occurs (.group ⟨1⟩) [.plain "e"] := by
    refine .intro (n := 1) (by decide +kernel) (hsequence.once_iff.2 ?_).times
    have hd := (Components.words_single_iff hsequence.single (m := .element ⟨3⟩)
      (by decide +kernel)).2 (.inl ⟨rfl, by decide +kernel⟩)
    have he := (Components.words_single_iff hsequence.single (m := .element ⟨4⟩)
      (by decide +kernel)).2 (.inr ⟨.plain "e", rfl, by decide +kernel⟩)
    exact .cons hd (.singleton he)
  have hnone : issues = [] := hiff.2 (.inl (.cons ha (.cons hcb (.singleton he))))
  rwa [hnone] at hissues

end Conform
