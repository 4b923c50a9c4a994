import Conform.Proofs.Model.Flat
import Mathlib.Data.List.TakeWhile
/-!
# Walking through groups of single elements

How a walk moves inside a group of single elements, whatever is around it. A sequence counts a
repetition at its last member, a choice at every member that was there. Both go on with their first
member until their bounds are reached.
-/

namespace Conform.Walk

variable {s : Schema} {w : Walk} {m : Member} {before : List Member}

theorem mem_head?_of_append {ns u v : List QName} {n : QName} (h : ns = u ++ v)
    (hn : n ∈ u.head?) : n ∈ ns.head? := by
  rw [Option.mem_def] at hn ⊢
  rw [h, List.head?_append, hn]
  rfl

/-! ## Staying in a group -/

/-- While a walk stays in a group, what is around it does not change, and no counts but those of the
group and of its members do. -/
structure StaysIn (s : Schema) (g : GroupId) (w w' : Walk) : Prop where
  outer : w'.outer = w.outer
  same : ∀ x, x ≠ .group g → x ∉ (s.group g).members →
    w'.count x = w.count x ∧ w'.ceilings.count x = w.ceilings.count x

theorem StaysIn.trans {g : GroupId} {w₁ w₂ w₃ : Walk} (h : StaysIn s g w₁ w₂)
    (h' : StaysIn s g w₂ w₃) : StaysIn s g w₁ w₃ := by
  refine ⟨h'.outer.trans h.outer, ?_⟩
  intro x hx hmem
  have h₁ := h.same x hx hmem
  have h₂ := h'.same x hx hmem
  exact ⟨h₂.1.trans h₁.1, h₂.2.trans h₁.2⟩

/-! ## Sequences -/

/-- One repetition is counted if a member was there. -/
theorem countSequence_flat
    (hceilings : ∀ x ∈ (s.group w.here.group).members, w.ceilings.count x = 0)
    (hle : ∀ x ∈ (s.group w.here.group).members, w.count x ≤ 1)
    (hsome : ∃ x ∈ (s.group w.here.group).members, 0 < w.count x) :
    w.countSequence s = { w with counts := w.counts.add w.hereMember 1 } := by
  unfold countSequence
  cases hdrop : (s.group w.here.group).members.dropWhile (fun x => w.count x = 0) with
  | nil =>
      obtain ⟨x, hx, hpos⟩ := hsome
      have := List.dropWhile_eq_nil_iff.1 hdrop x hx
      simp only [decide_eq_true_eq] at this
      omega
  | cons x later =>
      have hx : x ∈ (s.group w.here.group).members := by
        have hsub := List.dropWhile_subset (fun x => decide (w.count x = 0))
          (l := (s.group w.here.group).members)
        rw [hdrop] at hsub
        exact hsub (List.mem_cons_self ..)
      have hnot := List.head?_dropWhile_not (fun x => decide (w.count x = 0))
        (s.group w.here.group).members
      rw [hdrop] at hnot
      have hpos : ¬w.count x = 0 := by simpa using hnot
      have hone : w.ceilingOrCount x = 1 := by
        have hcount := hle x hx
        unfold count at hcount hpos
        rw [ceilingOrCount, if_pos (hceilings x hx)]
        omega
      simp only [hone, decide_true, Bool.true_or, if_true]

/-- The end of a member of a flat sequence in which something has matched. -/
theorem closeInSequence_flat (hg : s.IsFlatSequence w.here.group)
    (hmembers : (s.group w.here.group).members = before ++ m :: w.here.rest)
    (hceilings : ∀ x ∈ (s.group w.here.group).members, w.ceilings.count x = 0)
    (hle : ∀ x ∈ (s.group w.here.group).members, w.count x ≤ 1)
    (hsome : ∃ x ∈ (s.group w.here.group).members, 0 < w.count x) :
    w.closeInSequence s m = ((s.occurs m).isMissing (w.count m),
      if w.here.rest = [] then { w with counts := w.counts.add w.hereMember 1 } else w) := by
  have hm : m ∈ (s.group w.here.group).members := by simp [hmembers]
  have hnodup : (before ++ m :: w.here.rest).Nodup := hmembers ▸ hg.distinct.nodup
  have hlast := getLast?_eq_some_iff hnodup
  rw [← hmembers] at hlast
  have hother : m ≠ w.hereMember := by
    rintro rfl
    cases hg.distinct.isGroup_eq_false hm
  have hceiling := hceilings m hm
  unfold closeInSequence
  by_cases hrest : w.here.rest = []
  · rw [if_pos (hlast.2 hrest), if_pos hrest, countSequence_flat hceilings hle hsome]
    simp [reach, count, hceiling, hother]
  · rw [if_neg (fun h => hrest (hlast.1 h)), if_neg hrest]
    simp [reach, count, hceiling]

/-! ## Choices -/

/-- The walk behind a repetition of a choice that one member stands for. -/
def repeatChoice (s : Schema) (w : Walk) (m : Member) : Walk :=
  { w with
    here := ⟨w.here.group, items s w.version w.here.group, false⟩
    counts := (w.counts.add w.hereMember 1).set m 0
    ceilings := w.ceilings.add w.hereMember 1 }

theorem count_repeatChoice (x : Member) :
    (w.repeatChoice s m).count x =
      if x = m then 0 else if x = w.hereMember then w.count w.hereMember + 1 else w.count x := by
  simp [repeatChoice, count]

theorem ceilings_repeatChoice (x : Member) : (w.repeatChoice s m).ceilings.count x =
    if x = w.hereMember then w.ceilings.count w.hereMember + 1 else w.ceilings.count x := by
  simp [repeatChoice]

/-- The end of a member of a flat choice that was there is the end of a repetition. -/
theorem closeInChoice_flat (hg : s.IsFlatChoice w.here.group)
    (hm : m ∈ (s.group w.here.group).members) (hceiling : w.ceilings.count m = 0)
    (hcount : w.count m = 1) : w.closeInChoice s m = (false, w.repeatChoice s m) := by
  have honce := hg.once m hm
  have hcount' : w.counts.count m = 1 := hcount
  have hgreatest : w.ceilingOrCount m = 1 := by
    rw [ceilingOrCount, if_pos hceiling, hcount']
  have hleast : w.countChoice s m = w.addRepetitions 1 1 := by
    unfold countChoice
    rw [honce, hgreatest, hcount]
    rfl
  unfold closeInChoice
  rw [if_neg (by omega)]
  simp only [hgreatest, hleast, honce]
  rfl

/-- A child of a flat choice is a repetition. -/
theorem closeLeaf_flatChoice (hg : s.IsFlatChoice w.here.group)
    (hm : m ∈ (s.group w.here.group).members) (hceiling : w.ceilings.count m = 0)
    (hcount : w.count m = 1) : w.closeLeaf s m = (some false, w.repeatChoice s m) := by
  rw [closeLeaf, closeItem_choice hg.compositor]
  have hsame : ({ w with outer := w.outer } : Walk) = w := rfl
  rw [hsame, closeInChoice_flat hg hm hceiling hcount]

/-! ## Inside a sequence -/

/-- A walk inside a sequence of single elements. -/
structure InSequence (s : Schema) (g : GroupId) (w : Walk) : Prop where
  here : w.here.group = g
  ceiling_group : w.ceilings.count (.group g) = 0
  ceilings : ∀ m ∈ (s.group g).members, w.ceilings.count m = 0
  le_one : ∀ m ∈ (s.group g).members, w.count m ≤ 1

/-- The members that were passed since the last repetition need not be there, and the next child is
none of them. -/
def PassedBy (s : Schema) (before : List Member) (ns : List QName) : Prop :=
  ns = [] ∨ ∀ m ∈ before, (s.occurs m).min.toNat = 0 ∧ ∀ n ∈ ns.head?, s.passes m n = false

/-- A walk on a member of a sequence of single elements, with the children that are left. -/
structure OnSingle (s : Schema) (g : GroupId) (w : Walk) (ns : List QName) (m : Member) :
    Prop where
  inside : w.InSequence s g
  current : w.current = some m
  count_eq : w.count m = 0
  not_over : ∀ n ∈ (s.group g).occurs.max, w.count (.group g) < n.toNat
  members : ∃ before, (s.group g).members = before ++ m :: w.here.rest ∧
    (w.here.matched = false → PassedBy s before ns) ∧
    (w.here.matched = true → ∃ x ∈ before, 0 < w.count x)

/-- A walk behind a member of a repetition that has begun, the `k + 1`st. The last member has ended
it. -/
structure BehindSingle (s : Schema) (g : GroupId) (w : Walk) (k : Nat) : Prop where
  inside : w.InSequence s g
  matched : w.here.matched = true
  members : ∃ before, (s.group g).members = before ++ w.here.rest ∧ ∃ x ∈ before, 0 < w.count x
  count_group : w.count (.group g) = if w.here.rest = [] then k + 1 else k

/-- What is still to come in a sequence before some of its members. -/
def SingleRest (s : Schema) (g : GroupId) (matched : Bool) (k : Nat) (ms : List Member)
    (ns : List QName) : Prop :=
  if matched then s.RestThenMore g k ms ns else s.More (.group g) k ns

theorem singleRest_unmatched {g : GroupId} {k : Nat} {ms : List Member} :
    SingleRest s g false k ms = s.More (.group g) k := rfl

/-- How many members are passed without a child at most. -/
def singleTodo (s : Schema) (g : GroupId) (w : Walk) : Nat :=
  1 + w.here.rest.length + if w.here.matched then (s.group g).members.length else 0

section

variable {g : GroupId} {ns : List QName} {last : Option Member} {violations : List Violation}

theorem InSequence.reach_eq (h : w.InSequence s g) : w.reach w.hereMember = w.count (.group g) := by
  rw [reach, hereMember, h.here, h.ceiling_group]
  exact Nat.max_eq_left (Nat.zero_le _)

theorem isGroupOver_iff (hhere : w.here.group = g)
    (hreach : w.reach w.hereMember = w.count (.group g)) : w.isGroupOver s = false ↔
      ∀ n ∈ (s.group g).occurs.max, w.count (.group g) < n.toNat := by
  rw [isGroupOver, hreach, hhere, Occurs.isOver_eq_false_iff]

theorem InSequence.isGroupOver_iff (h : w.InSequence s g) : w.isGroupOver s = false ↔
    ∀ n ∈ (s.group g).occurs.max, w.count (.group g) < n.toNat :=
  Walk.isGroupOver_iff h.here h.reach_eq

theorem InSequence.congr (h : w.InSequence s g) {w' : Walk} (hhere : w'.here.group = g)
    (hceilings : w'.ceilings = w.ceilings) (hle : ∀ m ∈ (s.group g).members, w'.count m ≤ 1) :
    w'.InSequence s g := by
  refine ⟨hhere, ?_, ?_, hle⟩
  · rw [hceilings]
    exact h.ceiling_group
  · intro m hm
    rw [hceilings]
    exact h.ceilings m hm

/-- From a place before some members the walk comes to the first of them. -/
theorem InSequence.run_placed (h : w.InSequence s g) (hg : s.IsFlatSequence g) (ns : List QName)
    (last : Option Member) (violations : List Violation) {rest : List Member}
    (hover : ∀ n ∈ (s.group g).occurs.max, w.count (.group g) < n.toNat)
    (hmembers : (s.group g).members = before ++ m :: rest) (hrest : w.here.rest = m :: rest)
    (hpassed : w.here.matched = false → PassedBy s before ns)
    (hmatched : w.here.matched = true → ∃ x ∈ before, 0 < w.count x) {n : Nat} :
    ∃ w', Passage.run s (n + 1) ⟨w, last, violations⟩ = .placed ⟨w', some m, violations⟩ ∧
      StaysIn s g w w' ∧ w'.OnSingle s g ns m ∧ w'.here = ⟨w.here.group, rest, w.here.matched⟩ ∧
      w'.count (.group g) = w.count (.group g) := by
  have hnext := nextItem_of_ne_all (s := s) (w := w) (by rw [h.here, hg.compositor]; simp)
  rw [hrest] at hnext
  have hm : m ∈ (s.group g).members := by simp [hmembers]
  have hleaf := hg.distinct.isGroup_eq_false hm
  have hother : Member.group g ≠ m := by
    intro heq
    rw [← heq] at hleaf
    cases hleaf
  have hstep : Passage.step s ⟨w, last, violations⟩ = .placed
      ⟨{ w with here := { w.here with rest }, counts := w.counts.set m 0, current := some m },
        some m, violations⟩ := by
    rw [Passage.step_of_leaf (h.isGroupOver_iff.2 hover) hnext hleaf]
    simp [Passage.place, h.here, hg.compositor]
  have hcount : ∀ x, count { w with
      here := { w.here with rest }, counts := w.counts.set m 0, current := some m } x =
        if x = m then 0 else w.count x := by
    intro x
    simp [count]
  refine ⟨_, Passage.run_placed hstep, ⟨rfl, ?_⟩, ?_, rfl, ?_⟩
  · intro x _ hx
    refine ⟨?_, rfl⟩
    rw [hcount, if_neg]
    intro heq
    exact hx (heq ▸ hm)
  · refine ⟨h.congr h.here rfl ?_, rfl, ?_, ?_, before, hmembers, hpassed, ?_⟩
    · intro x hx
      have hle := h.le_one x hx
      rw [hcount]
      split <;> omega
    · rw [hcount, if_pos rfl]
    · rw [hcount, if_neg hother]
      exact hover
    · intro hyes
      obtain ⟨x, hx, hpos⟩ := hmatched hyes
      refine ⟨x, hx, ?_⟩
      rw [hcount, if_neg]
      · exact hpos
      · intro heq
        have hnodup : (before ++ m :: rest).Nodup := hmembers ▸ hg.distinct.nodup
        rw [List.nodup_append] at hnodup
        exact hnodup.2.2 x hx m (List.mem_cons_self ..) heq
  · rw [hcount, if_neg hother]

/-- Behind its last member a repetition that has begun gives way to the next one. -/
theorem InSequence.step_restart (h : w.InSequence s g) (hg : s.IsFlatSequence g)
    (hmax : (s.group g).occurs.max ≠ some 0)
    (hover : ∀ n ∈ (s.group g).occurs.max, w.count (.group g) < n.toNat)
    (hmatched : w.here.matched = true) (hrest : w.here.rest = []) :
    Passage.step s ⟨w, last, violations⟩ =
      .again ⟨{ w with here := ⟨g, (s.group g).members, false⟩ }, none, violations⟩ := by
  have hne : (s.group g).compositor ≠ .all := by
    rw [hg.compositor]
    simp
  have hnext := nextItem_of_ne_all (s := s) (w := w) (by rw [h.here]; exact hne)
  rw [hrest] at hnext
  rw [Passage.step_of_none (h.isGroupOver_iff.2 hover) hnext]
  simp [Passage.leaveEnd, hmatched, h.here, hg.compositor, restartGroup, items_of_ne_all hne hmax]

/-- The next member after one of a repetition that has begun, which may open a further one. -/
structure OnNext (s : Schema) (g : GroupId) (k : Nat) (w w' : Walk) (ns : List QName)
    (m : Member) : Prop where
  stays : StaysIn s g w w'
  on : w'.OnSingle s g ns m
  rest_iff : ∀ u, s.RestThenMore g k w.here.rest u ↔
    SingleRest s g w'.here.matched (w'.count (.group g)) (m :: w'.here.rest) u
  first : w'.here.matched = false →
    (s.group g).members = m :: w'.here.rest ∧ 0 < w'.count (.group g)
  todo : w'.singleTodo s g ≤ w.here.rest.length + (s.group g).members.length

/-- Behind a member the walk comes to the next one, as long as the bounds admit it. -/
theorem BehindSingle.run_placed {k : Nat} (h : w.BehindSingle s g k)
    (hg : s.IsFlatSequence g) (ns : List QName) (last : Option Member)
    (violations : List Violation) (hmax : (s.group g).occurs.max ≠ some 0)
    (hover : ∀ n ∈ (s.group g).occurs.max, w.count (.group g) < n.toNat) {n : Nat} :
    ∃ w' m, Passage.run s (n + 2) ⟨w, last, violations⟩ = .placed ⟨w', some m, violations⟩ ∧
      OnNext s g k w w' ns m := by
  obtain ⟨before, hmembers, x, hx, hpos⟩ := h.members
  cases hrest : w.here.rest with
  | nil =>
      rw [hrest, List.append_nil] at hmembers
      rw [← hmembers] at hx
      obtain ⟨m, rest, hcons⟩ := List.exists_cons_of_ne_nil (List.ne_nil_of_mem hx)
      have hinside : InSequence s g { w with here := ⟨g, (s.group g).members, false⟩ } :=
        h.inside.congr rfl rfl h.inside.le_one
      obtain ⟨w', hrun, hstays, hon, hhere, hcount⟩ := hinside.run_placed hg ns none violations
        hover (hcons.trans (List.nil_append _).symm) hcons (fun _ => .inr (by simp)) (by simp)
        (n := n)
      have hgroup := h.count_group
      rw [if_pos hrest] at hgroup
      have hcount' : w'.count (.group g) = k + 1 := hcount.trans hgroup
      refine ⟨w', m, ?_, ⟨hstays.outer, hstays.same⟩, hon, ?_, ?_, ?_⟩
      · rw [Passage.run_again (h.inside.step_restart hg hmax hover h.matched hrest)]
        exact hrun
      · intro u
        rw [hrest, hhere, hcount', Components.restThenMore_nil]
        rfl
      · intro _
        rw [hhere, hcount']
        exact ⟨hcons, Nat.succ_pos k⟩
      · rw [singleTodo, hhere, hrest, hcons]
        simp
        omega
  | cons m rest =>
      obtain ⟨w', hrun, hstays, hon, hhere, hcount⟩ := h.inside.run_placed hg ns last violations
        hover (hrest ▸ hmembers) hrest (fun hno => by rw [h.matched] at hno; cases hno)
        (fun _ => ⟨x, hx, hpos⟩) (n := n + 1)
      refine ⟨w', m, hrun, hstays, hon, ?_, ?_, ?_⟩
      · intro u
        have hgroup := h.count_group
        rw [if_neg (by simp [hrest])] at hgroup
        rw [hrest, hhere, hcount, hgroup, h.matched]
        rfl
      · intro hno
        rw [hhere, h.matched] at hno
        cases hno
      · rw [singleTodo, hhere, hrest, h.matched]
        simp
        omega

/-! ## The end of a member of a sequence -/

/-- Behind the end of a member of a repetition that has begun. -/
theorem InSequence.closed (h : w.InSequence s g) (hg : s.IsFlatSequence g)
    (hmembers : (s.group g).members = before ++ m :: w.here.rest)
    (hmatched : w.here.matched = true) (hpos : ∃ x ∈ before ++ [m], 0 < w.count x) :
    ∃ w', w.closeInSequence s m = ((s.occurs m).isMissing (w.count m), w') ∧ StaysIn s g w w' ∧
      w'.BehindSingle s g (w.count (.group g)) ∧ w'.here = w.here := by
  obtain ⟨rfl, hceiling, hceilings, hle⟩ := h
  obtain ⟨x, hx, hxpos⟩ := hpos
  have hmembers' : (s.group w.here.group).members = (before ++ [m]) ++ w.here.rest := by
    rw [hmembers]
    simp
  have hxmem : x ∈ (s.group w.here.group).members := by
    rw [hmembers']
    exact List.mem_append_left _ hx
  refine ⟨_, closeInSequence_flat hg hmembers hceilings hle ⟨x, hxmem, hxpos⟩, ?_⟩
  by_cases hrest : w.here.rest = []
  · -- the last member ends the repetition
    rw [if_pos hrest]
    have hcount : ∀ y, count { w with counts := w.counts.add w.hereMember 1 } y =
        if y = .group w.here.group then w.count (.group w.here.group) + 1 else w.count y := by
      intro y
      simp [count, hereMember]
    have hother : ∀ y ∈ (s.group w.here.group).members, y ≠ .group w.here.group := by
      intro y hy heq
      have hleaf := hg.distinct.isGroup_eq_false hy
      rw [heq] at hleaf
      cases hleaf
    refine ⟨⟨rfl, ?_⟩, ⟨⟨rfl, hceiling, hceilings, ?_⟩, hmatched, ⟨_, hmembers', x, hx, ?_⟩, ?_⟩,
      rfl⟩
    · intro y hy _
      refine ⟨?_, rfl⟩
      rw [hcount, if_neg hy]
    · intro y hy
      rw [hcount, if_neg (hother y hy)]
      exact hle y hy
    · rw [hcount, if_neg (hother x hxmem)]
      exact hxpos
    · rw [hcount, if_pos rfl]
      exact (if_pos hrest).symm
  · rw [if_neg hrest]
    refine ⟨⟨rfl, fun _ _ _ => ⟨rfl, rfl⟩⟩, ⟨⟨rfl, hceiling, hceilings, hle⟩, hmatched,
      ⟨_, hmembers', x, hx, hxpos⟩, ?_⟩, rfl⟩
    rw [if_neg hrest]

/-- A child fills its member. -/
theorem OnSingle.advance_eq (h : w.OnSingle s g ns m) (hg : s.IsFlatSequence g) :
    w.advance s true = (w.take m).moveOn s m := by
  obtain ⟨before, hmembers, -⟩ := h.members
  have hm : m ∈ (s.group g).members := by simp [hmembers]
  obtain ⟨-, hone, -⟩ := hg.single m hm
  apply advance_full h.current
  · rw [h.inside.here, hg.compositor]
    simp
  · rw [h.count_eq, Occurs.isOver, hone]
    rfl
  · intro hchoice
    rw [h.inside.here, hg.compositor] at hchoice
    cases hchoice

/-- The end of a member after a child. -/
theorem OnSingle.close_taken (h : w.OnSingle s g ns m) (hg : s.IsFlatSequence g) :
    ∃ w', (w.take m).closeLeaf s m = (some false, w') ∧ StaysIn s g w w' ∧
      w'.BehindSingle s g (w.count (.group g)) ∧ w'.here.rest = w.here.rest := by
  obtain ⟨before, hmembers, -⟩ := h.members
  have hm : m ∈ (s.group g).members := by simp [hmembers]
  obtain ⟨hleaf, -, hmin⟩ := hg.single m hm
  have hcountM : (w.take m).count m = 1 := by
    rw [count_take, if_pos rfl, h.count_eq]
  have hinside : (w.take m).InSequence s g := by
    refine h.inside.congr h.inside.here rfl ?_
    intro x hx
    have hle := h.inside.le_one x hx
    rw [count_take, h.count_eq]
    split <;> omega
  obtain ⟨w', hclose, hstays, hbehind, hhere⟩ :=
    hinside.closed hg hmembers rfl ⟨m, by simp, by omega⟩
  have hfalse : (s.occurs m).isMissing ((w.take m).count m) = false := by
    rw [hcountM]
    simpa [Occurs.isMissing] using hmin
  have hgroup : (w.take m).count (.group g) = w.count (.group g) := by
    rw [count_take, if_neg]
    intro heq
    rw [← heq] at hleaf
    cases hleaf
  rw [hfalse] at hclose
  rw [hgroup] at hbehind
  refine ⟨w', ?_, ⟨hstays.outer, ?_⟩, hbehind, by rw [hhere]; rfl⟩
  · have hcounted : (w.take m).closeLeaf s m = _ :=
      closeItem_counted (by rw [hinside.here, hg.compositor]) (.inl rfl)
    rw [hcounted]
    exact congrArg (fun r : Bool × Walk => (some r.1, r.2)) hclose
  · intro x hx hmem
    obtain ⟨hcount, hceiling⟩ := hstays.same x hx hmem
    refine ⟨?_, hceiling⟩
    rw [hcount, count_take, if_neg]
    intro heq
    exact hmem (heq ▸ hm)

/-- The end of a member without a child, in a repetition that has begun. -/
theorem OnSingle.close_matched (h : w.OnSingle s g ns m) (hg : s.IsFlatSequence g)
    (hmatched : w.here.matched = true) :
    ∃ w', w.closeLeaf s m = (some ((s.occurs m).isMissing 0), w') ∧ StaysIn s g w w' ∧
      w'.BehindSingle s g (w.count (.group g)) ∧ w'.here.rest = w.here.rest := by
  obtain ⟨before, hmembers, -, hpos⟩ := h.members
  obtain ⟨x, hx, hxpos⟩ := hpos hmatched
  obtain ⟨w', hclose, hstays, hbehind, hhere⟩ := h.inside.closed hg hmembers hmatched
    ⟨x, List.mem_append_left _ hx, hxpos⟩
  rw [h.count_eq] at hclose
  refine ⟨w', ?_, hstays, hbehind, by rw [hhere]⟩
  have hsame : ({ w with outer := w.outer, here := { w.here with matched := true } } : Walk) = w := by
    rw [← hmatched]
  have hcounted : w.closeLeaf s m = _ :=
    closeItem_counted (by rw [h.inside.here, hg.compositor]) (.inl hmatched)
  rw [hcounted, hsame, hclose]

/-- The end of a member that need not be there, before a repetition has begun. -/
theorem OnSingle.close_optional (h : w.OnSingle s g ns m) (hg : s.IsFlatSequence g)
    (hmatched : w.here.matched = false) (hzero : (s.occurs m).min.toNat = 0) :
    w.closeLeaf s m = (some false, w) := by
  obtain ⟨before, hmembers, -⟩ := h.members
  have hleaf := hg.distinct.isGroup_eq_false (m := m) (by simp [hmembers])
  exact closeItem_emptiable (by rw [h.inside.here, hg.compositor]) hmatched h.count_eq
    ((s.isEmptiable_leaf hleaf).2 hzero)

/-- What is still to come once the child of a member is there. -/
theorem OnSingle.singleRest_take {n : QName} (h : w.OnSingle s g (n :: ns) m)
    (hg : s.IsFlatSequence g) (hn : s.passes m n = true) (u : List QName) :
    SingleRest s g w.here.matched (w.count (.group g)) (m :: w.here.rest) (n :: u) ↔
      s.RestThenMore g (w.count (.group g)) w.here.rest u := by
  obtain ⟨before, hmembers, hpassed, -⟩ := h.members
  cases hmatched : w.here.matched with
  | true => exact hg.restThenMore_take hmembers hn
  | false =>
      apply hg.more_take hmembers hn
      intro x hx
      rcases hpassed hmatched with hnil | hskip
      · cases hnil
      · exact (hskip x hx).1

/-- What is still to come if a member is not there, in a repetition that has begun. -/
theorem OnSingle.singleRest_matched (h : w.OnSingle s g ns m) (hg : s.IsFlatSequence g)
    (hmatched : w.here.matched = true) {u : List QName}
    (hn : ∀ n ∈ u.head?, s.passes m n = false) :
    SingleRest s g w.here.matched (w.count (.group g)) (m :: w.here.rest) u ↔
      (s.occurs m).isMissing 0 = false ∧
        s.RestThenMore g (w.count (.group g)) w.here.rest u := by
  obtain ⟨before, hmembers, -⟩ := h.members
  rw [hmatched, SingleRest, if_pos rfl, hg.restThenMore_pass hmembers hn]
  simp [Occurs.isMissing]

theorem OnSingle.singleTodo_le (h : w.OnSingle s g ns m) :
    w.singleTodo s g ≤ 2 * (s.group g).members.length := by
  obtain ⟨before, hmembers, -⟩ := h.members
  have hlength : w.here.rest.length < (s.group g).members.length := by
    simp [hmembers]
    omega
  rw [singleTodo]
  split <;> omega

theorem PassedBy.nil (before : List Member) : PassedBy s before [] := .inl rfl

/-- The members up to one that need not be there are passed. -/
theorem PassedBy.snoc (h : PassedBy s before ns) (hzero : (s.occurs m).min.toNat = 0)
    (hn : ∀ n ∈ ns.head?, s.passes m n = false) : PassedBy s (before ++ [m]) ns := by
  rcases h with hnil | hskip
  · exact .inl hnil
  · refine .inr fun x hx => ?_
    rcases List.mem_append.1 hx with hx | hx
    · exact hskip x hx
    · obtain rfl : x = m := by simpa using hx
      exact ⟨hzero, hn⟩

/-- No repetition begins with a member that must be there and is not. -/
theorem OnSingle.more_required (h : w.OnSingle s g ns m) (hg : s.IsFlatSequence g)
    (hmatched : w.here.matched = false) (hmin : (s.occurs m).min.toNat ≠ 0) {u v : List QName}
    (hns : ns = u ++ v) (hn : ∀ n ∈ ns.head?, s.passes m n = false) (k : Nat) :
    s.More (.group g) k u ↔ u = [] ∧ (s.group g).occurs.Admits k := by
  obtain ⟨before, hmembers, hpassed, -⟩ := h.members
  refine hg.more_required hmembers ?_ hmin
  intro x hx n hhead
  have hhead' := mem_head?_of_append hns hhead
  rcases List.mem_append.1 hx with hx | hx
  · rcases hpassed hmatched with hnil | hskip
    · rw [hnil] at hhead'
      cases hhead'
    · exact (hskip x hx).2 n hhead'
  · obtain rfl : x = m := by simpa using hx
    exact hn n hhead'

/-! ## Inside a choice -/

/-- A walk inside a choice between single elements, before a repetition. -/
structure InChoice (s : Schema) (g : GroupId) (w : Walk) : Prop where
  here : w.here.group = g
  matched : w.here.matched = false
  ceiling_group : w.ceilings.count (.group g) = w.count (.group g)
  ceilings : ∀ m ∈ (s.group g).members, w.ceilings.count m = 0
  counts : ∀ m ∈ (s.group g).members, w.count m = 0

/-- A walk on an alternative of a choice, with the children that are left. -/
structure OnAlternative (s : Schema) (g : GroupId) (w : Walk) (ns : List QName) (m : Member) :
    Prop where
  inside : w.InChoice s g
  current : w.current = some m
  not_over : ∀ n ∈ (s.group g).occurs.max, w.count (.group g) < n.toNat
  members : ∃ before, (s.group g).members = before ++ m :: w.here.rest ∧
    ∀ x ∈ before, ∀ n ∈ ns.head?, s.passes x n = false

theorem InChoice.reach_eq (h : w.InChoice s g) : w.reach w.hereMember = w.count (.group g) := by
  rw [reach, hereMember, h.here, h.ceiling_group]
  exact Nat.max_self _

theorem InChoice.isGroupOver_iff (h : w.InChoice s g) : w.isGroupOver s = false ↔
    ∀ n ∈ (s.group g).occurs.max, w.count (.group g) < n.toNat :=
  Walk.isGroupOver_iff h.here h.reach_eq

/-- From a place before some alternatives the walk comes to the first of them. -/
theorem InChoice.run_placed (h : w.InChoice s g) (hg : s.IsFlatChoice g) (ns : List QName)
    (last : Option Member) (violations : List Violation) {rest : List Member}
    (hover : ∀ n ∈ (s.group g).occurs.max, w.count (.group g) < n.toNat)
    (hmembers : (s.group g).members = before ++ m :: rest) (hrest : w.here.rest = m :: rest)
    (hskip : ∀ x ∈ before, ∀ n ∈ ns.head?, s.passes x n = false) {n : Nat} :
    ∃ w', Passage.run s (n + 1) ⟨w, last, violations⟩ = .placed ⟨w', some m, violations⟩ ∧
      StaysIn s g w w' ∧ w'.OnAlternative s g ns m ∧ w'.here.rest = rest ∧
      w'.count (.group g) = w.count (.group g) := by
  have hnext := nextItem_of_ne_all (s := s) (w := w) (by rw [h.here, hg.compositor]; simp)
  rw [hrest] at hnext
  have hleaf := hg.distinct.isGroup_eq_false (m := m) (by simp [hmembers])
  have hstep : Passage.step s ⟨w, last, violations⟩ = .placed
      ⟨{ w with here := { w.here with rest }, current := some m }, some m, violations⟩ := by
    rw [Passage.step_of_leaf (h.isGroupOver_iff.2 hover) hnext hleaf]
    simp [Passage.place, h.here, hg.compositor]
  refine ⟨_, Passage.run_placed hstep, ⟨rfl, fun _ _ _ => ⟨rfl, rfl⟩⟩, ?_, rfl, rfl⟩
  exact ⟨⟨h.here, h.matched, h.ceiling_group, h.ceilings, h.counts⟩, rfl, hover, before, hmembers,
    hskip⟩

/-- Behind its last alternative a choice is left. -/
theorem InChoice.step_end (h : w.InChoice s g) (hg : s.IsFlatChoice g)
    (hover : ∀ n ∈ (s.group g).occurs.max, w.count (.group g) < n.toNat)
    (hrest : w.here.rest = []) (last : Option Member) (violations : List Violation) :
    Passage.step s ⟨w, last, violations⟩ =
      Passage.leaveUnmatched s ⟨w, none, violations⟩ := by
  have hnext := nextItem_of_ne_all (s := s) (w := w) (by rw [h.here, hg.compositor]; simp)
  have hsame : ({ w with here := { w.here with rest := [] } } : Walk) = w := by rw [← hrest]
  rw [hrest, hsame] at hnext
  rw [Passage.step_of_none (h.isGroupOver_iff.2 hover) hnext]
  simp [Passage.leaveEnd, h.matched]

/-- A child fills its alternative. -/
theorem OnAlternative.advance_eq (h : w.OnAlternative s g ns m) (hg : s.IsFlatChoice g) :
    w.advance s true = (w.take m).moveOn s m := by
  obtain ⟨before, hmembers, -⟩ := h.members
  have hm : m ∈ (s.group g).members := by simp [hmembers]
  apply advance_full h.current
  · rw [h.inside.here, hg.compositor]
    simp
  · rw [h.inside.counts m hm, hg.once m hm]
    rfl
  · intro _
    rw [hg.once m hm]
    rfl

/-- The end of an alternative after a child is the end of a repetition. -/
theorem OnAlternative.close_taken (h : w.OnAlternative s g ns m) (hg : s.IsFlatChoice g)
    (hmax : (s.group g).occurs.max ≠ some 0) :
    ∃ w', (w.take m).closeLeaf s m = (some false, w') ∧ StaysIn s g w w' ∧ w'.InChoice s g ∧
      w'.here.rest = (s.group g).members ∧ w'.count (.group g) = w.count (.group g) + 1 := by
  obtain ⟨before, hmembers, -⟩ := h.members
  have hm : m ∈ (s.group g).members := by simp [hmembers]
  have hother : ∀ x ∈ (s.group g).members, x ≠ .group g := by
    intro x hx heq
    have hleaf := hg.distinct.isGroup_eq_false hx
    rw [heq] at hleaf
    cases hleaf
  have hgroup : (w.take m).here.group = g := h.inside.here
  have hmember : (w.take m).hereMember = .group g := by rw [hereMember, hgroup]
  have hcountM : (w.take m).count m = 1 := by
    rw [count_take, if_pos rfl, h.inside.counts m hm]
  have hclose := closeLeaf_flatChoice (w := w.take m) (hgroup ▸ hg) (hgroup ▸ hm)
    (h.inside.ceilings m hm) hcountM
  have hcount : ∀ x, ((w.take m).repeatChoice s m).count x = if x = m then 0 else
      if x = .group g then w.count (.group g) + 1 else w.count x := by
    intro x
    rw [count_repeatChoice, hmember, count_take, if_neg (hother m hm).symm, count_take]
    split
    · rfl
    · split <;> rfl
  have hceiling : ∀ x, ((w.take m).repeatChoice s m).ceilings.count x =
      if x = .group g then w.ceilings.count (.group g) + 1 else w.ceilings.count x := by
    intro x
    rw [ceilings_repeatChoice, hmember]
    rfl
  have hcountG : ((w.take m).repeatChoice s m).count (.group g) = w.count (.group g) + 1 := by
    rw [hcount, if_neg (hother m hm).symm, if_pos rfl]
  refine ⟨_, hclose, ⟨rfl, ?_⟩, ⟨hgroup, rfl, ?_, ?_, ?_⟩, ?_, hcountG⟩
  · intro x hx hmem
    rw [hcount, hceiling, if_neg hx, if_neg hx, if_neg]
    · exact ⟨rfl, rfl⟩
    · intro heq
      exact hmem (heq ▸ hm)
  · rw [hceiling, if_pos rfl, hcountG, h.inside.ceiling_group]
  · intro x hx
    rw [hceiling, if_neg (hother x hx)]
    exact h.inside.ceilings x hx
  · intro x hx
    rw [hcount]
    split
    · rfl
    · rw [if_neg (hother x hx)]
      exact h.inside.counts x hx
  · have hitems := items_of_ne_all (s := s) (v := (w.take m).version) (g := g)
      (by rw [hg.compositor]; simp) hmax
    rw [← hitems, ← hgroup]
    rfl

/-- The end of an alternative without a child. -/
theorem OnAlternative.close_passed (h : w.OnAlternative s g ns m) (hg : s.IsFlatChoice g) :
    w.closeLeaf s m = (some false, w) := by
  obtain ⟨before, hmembers, -⟩ := h.members
  have hm : m ∈ (s.group g).members := by simp [hmembers]
  have hsame : ({ w with outer := w.outer } : Walk) = w := rfl
  rw [closeLeaf, closeItem_choice (by rw [h.inside.here, hg.compositor]), hsame,
    closeInChoice_zero (h.inside.counts m hm)]

end

end Conform.Walk
