import Conform.Proofs.Model.Budget
/-!
# Paces of a walk

What a walk does between two operations, and in the middle of one, is cut into paces: a child is
counted, a member ends, the next one is looked for. Each operation is a chain of paces, so what
every pace keeps holds wherever a walk may be.
-/

namespace Conform

namespace Walk

/-- What a walk is about to do. -/
inductive Phase where
  /-- It waits on its leaf for a child. -/
  | waiting
  /-- A member of the innermost group ends. -/
  | closing (m : Member)
  /-- The next member is looked for. -/
  | looking
  /-- It goes on no more. -/
  | ended
deriving DecidableEq, Repr

/-- A walk in the middle of what it does, after some children. -/
structure Point where
  phase : Phase
  walk : Walk
  children : Nat
deriving DecidableEq, Repr

/-- A walk between two operations. -/
def point (w : Walk) (n : Nat) : Point := ⟨if w.current.isSome then .waiting else .ended, w, n⟩

/-- The innermost group ends, as a member of the group around it if there is one. -/
def ascend (w : Walk) (n : Nat) : Point :=
  match w.outer with
  | [] => ⟨.ended, w, n⟩
  | f :: outer => ⟨.closing w.hereMember, { w with here := f, outer }, n⟩

/-- The walk on a leaf. In a sequence its earlier occurrences belong to another repetition. -/
def standOn (s : Schema) (w : Walk) (m : Member) : Walk :=
  { w with
    current := some m
    counts := if (s.group w.here.group).compositor = .sequence then w.counts.set m 0
      else w.counts }

/-- The walk in which the innermost group is taken to have occurred once. -/
def markOnce (w : Walk) : Walk := { w with counts := w.counts.set w.hereMember 1 }

/-- The walk in a group that was entered. It is not known how often the group occurs. -/
def forget (w : Walk) (g : GroupId) : Walk :=
  { w with
    counts := w.counts.set (.group g) 0
    ceilings := w.ceilings.set (.group g) 0 }

/-- One pace. -/
inductive Pace (s : Schema) : Point → Point → Prop
  /-- The leaf admits more children. -/
  | stay {w : Walk} {m : Member} {n : Nat} : w.current = some m →
      (w.take m).staysOn s m = true → Pace s ⟨.waiting, w, n⟩ ⟨.waiting, w.take m, n + 1⟩
  /-- The leaf admits no more children. -/
  | fill {w : Walk} {m : Member} {n : Nat} : w.current = some m →
      (s.group w.here.group).compositor ≠ .all → (w.take m).staysOn s m = false →
      Pace s ⟨.waiting, w, n⟩ ⟨.closing m, w.take m, n + 1⟩
  /-- An `all` group is gone through from its first member on after each child. -/
  | tick {w : Walk} {m : Member} {n : Nat} : w.current = some m →
      (s.group w.here.group).compositor = .all →
      Pace s ⟨.waiting, w, n⟩ ⟨.closing m, (w.take m).rewind s, n + 1⟩
  /-- The child is none of the leaf. -/
  | pass {w : Walk} {m : Member} {n : Nat} : w.current = some m →
      Pace s ⟨.waiting, w, n⟩ ⟨.closing m, w, n⟩
  | closeAll {w : Walk} {m : Member} {n : Nat} : (s.group w.here.group).compositor = .all →
      Pace s ⟨.closing m, w, n⟩ ⟨.looking, w, n⟩
  | closeChoice {w : Walk} {m : Member} {n : Nat} :
      (s.group w.here.group).compositor = .choice →
      Pace s ⟨.closing m, w, n⟩ ⟨.looking, (w.closeInChoice s m).2, n⟩
  | closeSequence {w : Walk} {m : Member} {n : Nat} :
      (s.group w.here.group).compositor = .sequence → w.here.matched = true ∨ 0 < w.count m →
      Pace s ⟨.closing m, w, n⟩
        ⟨.looking, (closeInSequence s { w with here := { w.here with matched := true } } m).2, n⟩
  /-- The member need not have occurred. -/
  | skip {w : Walk} {m : Member} {n : Nat} : (s.group w.here.group).compositor = .sequence →
      w.here.matched = false → w.count m = 0 → s.isEmptiable m = true →
      Pace s ⟨.closing m, w, n⟩ ⟨.looking, w, n⟩
  /-- The sequence ends with a member that must have occurred. -/
  | giveUp {w : Walk} {m : Member} {n : Nat} : (s.group w.here.group).compositor = .sequence →
      w.here.matched = false → w.count m = 0 → s.isEmptiable m = false →
      (w.outer = [] → (s.group w.here.group).occurs.min.toNat ≤ w.reach w.hereMember) →
      Pace s ⟨.closing m, w, n⟩ (w.ascend n)
  /-- The root sequence goes on without a member that must have occurred. -/
  | miss {w : Walk} {m : Member} {n : Nat} : (s.group w.here.group).compositor = .sequence →
      w.here.matched = false → w.count m = 0 → w.outer = [] →
      w.reach w.hereMember < (s.group w.here.group).occurs.min.toNat →
      Pace s ⟨.closing m, w, n⟩ ⟨.looking, w, n⟩
  | full {w : Walk} {n : Nat} : w.isGroupOver s = true → Pace s ⟨.looking, w, n⟩ (w.ascend n)
  | stand {w w' : Walk} {m : Member} {n : Nat} : w.isGroupOver s = false →
      w.nextItem s = (some m, w') → m.isGroup = false →
      Pace s ⟨.looking, w, n⟩ ⟨.waiting, w'.standOn s m, n⟩
  | enter {w w' w'' : Walk} {g : GroupId} {n : Nat} : w.isGroupOver s = false →
      w.nextItem s = (some (.group g), w') → w'.enter s g = .ok w'' →
      Pace s ⟨.looking, w, n⟩ ⟨.looking, w''.forget g, n⟩
  | tooDeep {w w' : Walk} {g : GroupId} {f : Failure} {n : Nat} :
      w.nextItem s = (some (.group g), w') → w'.enter s g = .error f →
      Pace s ⟨.looking, w, n⟩ ⟨.ended, w', n⟩
  /-- The group ends in which nothing has matched. -/
  | unmatched {w w' : Walk} {n : Nat} : w.isGroupOver s = false → w.nextItem s = (none, w') →
      w'.here.matched = false → (s.group w.here.group).compositor ≠ .all →
      Pace s ⟨.looking, w, n⟩ (w'.ascend n)
  | unmatchedAll {w w' : Walk} {n : Nat} : w.nextItem s = (none, w') →
      w'.here.matched = false → (s.group w.here.group).compositor = .all →
      Pace s ⟨.looking, w, n⟩ ((if w'.isSatisfied s then w'.markOnce else w').ascend n)
  /-- The group begins anew. -/
  | again {w w' : Walk} {n : Nat} : w.isGroupOver s = false → w.nextItem s = (none, w') →
      w'.here.matched = true → Pace s ⟨.looking, w, n⟩ ⟨.looking, w'.restartGroup s, n⟩
  /-- An `all` group ends that misses a member. -/
  | short {w w' : Walk} {n : Nat} : w.nextItem s = (none, w') →
      w'.here.matched = true → (s.group w.here.group).compositor = .all →
      w'.isSatisfied s = false → Pace s ⟨.looking, w, n⟩ (match w'.leave? with
        | none => ⟨.ended, w', n⟩
        | some w => ⟨.looking, w, n⟩)
  /-- An `all` group is full, and may occur no more. -/
  | fulfilled {w w' : Walk} {n : Nat} : w.nextItem s = (none, w') →
      w'.here.matched = true → (s.group w.here.group).compositor = .all →
      w'.isSatisfied s = true → Pace s ⟨.looking, w, n⟩ ⟨.looking, w'.markOnce, n⟩
  /-- An `all` group is full, and ends. -/
  | fulfilledLast {w w' : Walk} {n : Nat} : w.nextItem s = (none, w') →
      w'.here.matched = true → (s.group w.here.group).compositor = .all →
      w'.isSatisfied s = true → Pace s ⟨.looking, w, n⟩ (w'.markOnce.ascend n)
  | halt {w : Walk} {n : Nat} : Pace s ⟨.ended, w, n⟩ ⟨.ended, { w with current := none }, n⟩
  /-- A child that comes too late. -/
  | ignore {w : Walk} {n : Nat} : w.current = none → Pace s ⟨.ended, w, n⟩ ⟨.ended, w, n + 1⟩

/-- A chain of paces. -/
abbrev Paces (s : Schema) : Point → Point → Prop := Relation.ReflTransGen (Pace s)

variable {s : Schema}

theorem Pace.paces {p q : Point} (h : Pace s p q) : Paces s p q := .single h

theorem Paces.keep {P : Point → Prop} (hkept : ∀ {p q : Point}, Pace s p q → P p → P q)
    {p q : Point} (h : Paces s p q) (hp : P p) : P q := by
  induction h with
  | refl => exact hp
  | tail _ hpace ih => exact hkept hpace ih

/-- The end of the innermost group leaves the tallies. -/
theorem walk_ascend (w : Walk) (n : Nat) : (w.ascend n).walk.root = w.root ∧
    (w.ascend n).walk.counts = w.counts ∧ (w.ascend n).walk.ceilings = w.ceilings := by
  unfold ascend
  split <;> exact ⟨rfl, rfl, rfl⟩

theorem root_nextItem {w w' : Walk} {item : Option Member} (h : w.nextItem s = (item, w')) :
    w'.root = w.root := by
  obtain ⟨rest, -, rfl⟩ := nextItem_suffix h
  rfl

theorem tallies_nextItem {w w' : Walk} {item : Option Member} (h : w.nextItem s = (item, w')) :
    w'.counts = w.counts ∧ w'.ceilings = w.ceilings := by
  obtain ⟨rest, -, rfl⟩ := nextItem_suffix h
  exact ⟨rfl, rfl⟩

theorem root_enter {w w' : Walk} {g : GroupId} (h : w.enter s g = .ok w') :
    w'.root = w.root := by
  unfold enter at h
  split at h <;> cases h
  rfl

/-- A walk stays in the model of its root group. -/
theorem Pace.root {p q : Point} (h : Pace s p q) : q.walk.root = p.walk.root := by
  cases h with
  | stay | fill | tick | pass | closeAll | skip | miss | halt | ignore => rfl
  | closeChoice _ => exact root_of_hops (hops_closeInChoice _ _)
  | @closeSequence w m _ _ _ =>
      have hops := hops_closeInSequence (s := s)
        { w with here := { w.here with matched := true } } m
      exact (root_of_hops hops :)
  | giveUp | full => exact (walk_ascend _ _).1
  | stand _ hnext _ => exact (root_nextItem hnext :)
  | enter _ hnext henter => exact (root_enter henter).trans (root_nextItem hnext)
  | tooDeep hnext _ => exact root_nextItem hnext
  | unmatched _ hnext _ _ => exact (walk_ascend _ _).1.trans (root_nextItem hnext)
  | unmatchedAll hnext _ _ =>
      refine (walk_ascend _ _).1.trans (Eq.trans ?_ (root_nextItem hnext))
      split <;> rfl
  | again _ hnext _ => exact (root_nextItem hnext :)
  | short hnext _ _ _ =>
      refine Eq.trans ?_ (root_nextItem hnext)
      split
      · rfl
      · rename_i hleave
        exact root_of_hop (s := s) (.leave hleave)
  | fulfilled hnext _ _ _ => exact (root_nextItem hnext :)
  | fulfilledLast hnext _ _ _ => exact (walk_ascend _ _).1.trans (root_nextItem hnext :)

theorem Paces.root {p q : Point} (h : Paces s p q) : q.walk.root = p.walk.root := by
  induction h with
  | refl => rfl
  | tail _ hpace ih => exact hpace.root.trans ih

/-! ## Leaving members -/

/-- Where the end of a member or a group leads to. -/
def closed (r : Option Bool × Walk) (n : Nat) : Point :=
  ⟨if r.1.isSome then .looking else .ended, r.2, n⟩

theorem paces_closeItem (n : Nat) : ∀ (outer : List Frame) (m : Member) (w : Walk),
    Paces s ⟨.closing m, { w with outer }, n⟩ (closed (closeItem s outer m w) n)
  | outer, m, w => by
    cases hcomp : (s.group w.here.group).compositor with
    | all =>
        rw [closeItem_all hcomp]
        exact (Pace.closeAll (w := { w with outer }) hcomp).paces
    | choice =>
        rw [closeItem_choice hcomp]
        exact (Pace.closeChoice (w := { w with outer }) hcomp).paces
    | sequence =>
        by_cases hcounted : w.here.matched = true ∨ 0 < w.count m
        · rw [closeItem_counted hcomp hcounted]
          exact (Pace.closeSequence (w := { w with outer }) hcomp hcounted).paces
        rw [not_or, Bool.not_eq_true, Nat.not_lt, Nat.le_zero] at hcounted
        obtain ⟨hmatched, hcount⟩ := hcounted
        cases hempty : s.isEmptiable m with
        | true =>
            rw [closeItem_emptiable hcomp hmatched hcount hempty]
            exact (Pace.skip (w := { w with outer }) hcomp hmatched hcount hempty).paces
        | false =>
            rw [closeItem_unmatched hcomp hmatched hcount hempty]
            cases outer with
            | cons f outer =>
                have hup := Pace.giveUp (w := { w with outer := f :: outer }) (n := n) hcomp
                  hmatched hcount hempty nofun
                exact hup.paces.trans
                  (paces_closeItem n outer w.hereMember { w with here := f, outer := f :: outer })
            | nil =>
                dsimp only
                split
                · rename_i hmin
                  exact (Pace.giveUp (w := { w with outer := [] }) hcomp hmatched hcount hempty
                    fun _ => hmin).paces
                · rename_i hmin
                  exact (Pace.miss (w := { w with outer := [] }) hcomp hmatched hcount rfl
                    (Nat.lt_of_not_le hmin)).paces

/-- The innermost group ends. -/
theorem paces_closeGroup (w : Walk) (n : Nat) :
    Paces s (w.ascend n) (closed (w.closeGroup s) n) := by
  unfold ascend closeGroup
  cases houter : w.outer with
  | nil => exact .refl
  | cons f outer =>
      have hclose := paces_closeItem (s := s) n outer w.hereMember { w with here := f }
      rw [houter] at hclose
      exact hclose

end Walk

/-! ## Steps -/

/-- Where a step leads to. -/
def Move.point (n : Nat) : Move → Walk.Point
  | .again p => ⟨.looking, p.walk, n⟩
  | .placed p => p.walk.point n
  | .ended p | .failed _ p => ⟨.ended, p.walk, n⟩

namespace Passage

open Walk

variable {s : Schema} {w w' : Walk} {last : Option Member} {violations : List Violation}

theorem point_afterClose (p : Passage) (r : Option Bool × Walk) (n : Nat) :
    (p.afterClose r).point n = closed r n := by
  unfold afterClose
  split <;> rfl

theorem paces_leaveUnmatched (p : Passage) (n : Nat) :
    Paces s ((if (s.group p.walk.here.group).compositor = .all && p.walk.isSatisfied s
      then p.walk.markOnce else p.walk).ascend n) ((p.leaveUnmatched s).point n) := by
  unfold leaveUnmatched markOnce
  dsimp only
  generalize (if ((s.group p.walk.here.group).compositor = .all && p.walk.isSatisfied s) = true
    then { p.walk with counts := p.walk.counts.set p.walk.hereMember 1 } else p.walk : Walk) = w
  have hclose := paces_closeGroup (s := s) w n
  generalize w.closeGroup s = r at hclose
  obtain ⟨missing, w'⟩ := r
  cases missing with
  | none => exact hclose
  | some missing =>
      dsimp only
      split <;> exact hclose

theorem paces_leaveAll (hnext : w.nextItem s = (none, w')) (hover : w.isGroupOver s = false)
    (hmatched : w'.here.matched = true) (hall : (s.group w.here.group).compositor = .all)
    (n : Nat) : Paces s ⟨.looking, w, n⟩ ((leaveAll s ⟨w', last, violations⟩).point n) := by
  unfold leaveAll
  dsimp only
  cases hsatisfied : w'.isSatisfied s with
  | false =>
      rw [if_pos (by simp)]
      have hshort := (Pace.short (n := n) hnext hmatched hall hsatisfied).paces
      cases hleave : w'.leave? with
      | none =>
          rw [hleave] at hshort
          dsimp only
          split <;> exact hshort
      | some up =>
          rw [hleave] at hshort
          dsimp only
          exact hshort
  | true =>
      rw [if_neg (by simp)]
      split
      · exact (Pace.again hover hnext hmatched).paces
      · split
        · exact (Pace.fulfilled hnext hmatched hall hsatisfied).paces
        · rw [point_afterClose]
          exact (Pace.fulfilledLast hnext hmatched hall hsatisfied).paces.trans
            (paces_closeGroup w'.markOnce n)

theorem paces_leaveEnd (hnext : w.nextItem s = (none, w')) (hover : w.isGroupOver s = false)
    (n : Nat) : Paces s ⟨.looking, w, n⟩ ((leaveEnd s ⟨w', last, violations⟩).point n) := by
  have hgroup : w'.here.group = w.here.group := by
    obtain ⟨rest, -, rfl⟩ := nextItem_suffix hnext
    rfl
  unfold leaveEnd
  dsimp only
  cases hmatched : w'.here.matched with
  | false =>
      rw [if_pos (by simp)]
      have hleave := paces_leaveUnmatched (s := s) ⟨w', last, violations⟩ n
      by_cases hall : (s.group w.here.group).compositor = .all
      · refine (Pace.unmatchedAll hnext hmatched hall).paces.trans ?_
        simpa [hgroup, hall] using hleave
      · refine (Pace.unmatched hover hnext hmatched hall).paces.trans ?_
        simpa [hgroup, hall] using hleave
  | true =>
      rw [if_neg (by simp)]
      split
      · rename_i hall
        rw [hgroup] at hall
        exact paces_leaveAll hnext hover hmatched hall n
      · exact (Pace.again hover hnext hmatched).paces

theorem paces_step (p : Passage) (n : Nat) :
    Paces s ⟨.looking, p.walk, n⟩ ((p.step s).point n) := by
  obtain ⟨w, last, violations⟩ := p
  cases hover : w.isGroupOver s with
  | true =>
      rw [step_of_over hover, point_afterClose]
      exact (Pace.full hover).paces.trans (paces_closeGroup w n)
  | false =>
      cases hnext : w.nextItem s with
      | mk item w' =>
        have hplace : ∀ m : Member, item = some m → m.isGroup = false → Paces s ⟨.looking, w, n⟩
            ((step s ⟨w, last, violations⟩).point n) := by
          rintro m rfl hleaf
          rw [step_of_leaf hover hnext hleaf]
          have hstand := (Pace.stand (n := n) hover hnext hleaf).paces
          unfold standOn at hstand
          unfold place
          dsimp only
          split
          · rename_i hseq
            rw [if_pos hseq] at hstand
            exact hstand
          · rename_i hseq
            rw [if_neg hseq] at hstand
            exact hstand
        cases item with
        | none =>
            rw [step_of_none hover hnext]
            exact paces_leaveEnd hnext hover n
        | some m =>
            cases m with
            | element e => exact hplace _ rfl rfl
            | wildcard x => exact hplace _ rfl rfl
            | group g =>
                rw [step_of_group hover hnext]
                unfold enterGroup
                cases henter : w'.enter s g with
                | error f => exact (Pace.tooDeep hnext henter).paces
                | ok w'' => exact (Pace.enter hover hnext henter).paces

theorem paces_run (n : Nat) : ∀ {fuel : Nat} {p : Passage},
    (∀ p', run s fuel p ≠ .failed .endlessModel p') →
      Paces s ⟨.looking, p.walk, n⟩ ((run s fuel p).point n)
  | 0, p, hne => absurd rfl (hne p)
  | fuel + 1, p, hne => by
    have hstep := paces_step (s := s) p n
    unfold run at hne ⊢
    generalize p.step s = move at hstep hne
    cases move with
    | again p' => exact hstep.trans (paces_run n hne)
    | placed | ended | failed => exact hstep

end Passage

/-! ## Operations -/

namespace Walk

variable {s : Schema} {w w' : Walk} {n : Nat}

theorem walk_finish (p : Passage) : (finish s p).2 = { p.walk with current := none } := by
  unfold finish
  dsimp only
  split
  · rfl
  · split <;> rfl

/-- An operation leads to a walk between two operations, unless it was stopped at the bound on the
depth of models. -/
def ComesTo (s : Schema) (q : Point) (r : Except Failure (List Violation) × Walk) (n : Nat) :
    Prop :=
  ∃ q', Paces s q q' ∧ q'.walk = r.2 ∧ q'.children = n ∧
    ((∀ f, r.1 = .error f → ¬f.ExceedsDepth s) → q' = r.2.point n)

theorem ComesTo.after {q q' : Point} {r : Except Failure (List Violation) × Walk}
    (h : ComesTo s q' r n) (hpaces : Paces s q q') : ComesTo s q r n := by
  obtain ⟨p, hp, hwalk⟩ := h
  exact ⟨p, hpaces.trans hp, hwalk⟩

theorem comesTo_finish (p : Passage) {q : Point} (h : Paces s q ⟨.ended, p.walk, n⟩)
    (violations : List Violation) : ComesTo s q (.ok violations, (finish s p).2) n := by
  rw [walk_finish]
  exact ⟨_, h.tail .halt, rfl, rfl, fun _ => rfl⟩

theorem comesTo_moveOn {m : Member} (hne : (w.moveOn s m).1 ≠ .error .endlessModel) :
    ComesTo s ⟨.closing m, w, n⟩ (w.moveOn s m) n := by
  have hclose := paces_closeItem (s := s) n w.outer m w
  change Paces s _ (closed (w.closeLeaf s m) n) at hclose
  cases hclosed : w.closeLeaf s m with
  | mk missing w' =>
    rw [hclosed] at hclose
    cases missing with
    | none =>
        rw [moveOn_of_none hclosed]
        exact comesTo_finish ⟨w', none, []⟩ hclose _
    | some missing =>
        rw [moveOn_of_some hclosed] at hne ⊢
        refine ComesTo.after ?_ hclose
        have hended : ∀ p', Passage.run s s.stepBudget
            ⟨w', none, if missing then [⟨m, w.count m, [m]⟩] else []⟩ ≠
              .failed .endlessModel p' := fun p' hfailed => by
          rw [hfailed] at hne
          exact hne rfl
        have hrun := Passage.paces_run n hended
        cases hmove : Passage.run s s.stepBudget
            ⟨w', none, if missing then [⟨m, w.count m, [m]⟩] else []⟩ with
        | again p => exact absurd hmove Passage.run_ne_again
        | placed p =>
            rw [hmove] at hrun
            exact ⟨_, hrun, rfl, rfl, fun _ => rfl⟩
        | ended p =>
            rw [hmove] at hrun
            exact comesTo_finish p hrun _
        | failed f p =>
            rw [hmove] at hrun hne
            refine ⟨_, hrun, rfl, rfl, fun hdepth => absurd ?_ (hdepth f rfl)⟩
            exact (Passage.endsWalk_of_run hmove).exceedsDepth fun heq => hne (by rw [heq]; rfl)

theorem comesTo_advance {matched : Bool} (hne : (w.advance s matched).1 ≠ .error .endlessModel) :
    ComesTo s (w.point n) (w.advance s matched) (n + matched.toNat) := by
  cases hcurrent : w.current with
  | none =>
      have hover : w.point n = ⟨.ended, w, n⟩ := by simp [point, hcurrent]
      have hended : w.advance s matched = (.error (.misuse .modelEnded), w) := by
        simp [advance, hcurrent]
      rw [hended, hover]
      have hpoint : w.point (n + matched.toNat) = ⟨.ended, w, n + matched.toNat⟩ := by
        simp [point, hcurrent]
      refine ⟨_, ?_, rfl, rfl, fun _ => hpoint.symm⟩
      cases matched with
      | false => exact .refl
      | true => exact (Pace.ignore hcurrent).paces
  | some m =>
      have hwaiting : w.point n = ⟨.waiting, w, n⟩ := by simp [point, hcurrent]
      rw [hwaiting]
      simp only [advance, hcurrent] at hne ⊢
      cases matched with
      | false => exact (comesTo_moveOn hne).after (Pace.pass hcurrent).paces
      | true =>
          rw [if_pos rfl] at hne ⊢
          cases hstays : (w.take m).staysOn s m with
          | true =>
              have hpoint : (w.take m).point (n + 1) = ⟨.waiting, w.take m, n + 1⟩ := by
                simp [point, take, hcurrent]
              exact ⟨_, (Pace.stay hcurrent hstays).paces, rfl, rfl, fun _ => hpoint.symm⟩
          | false =>
              rw [hstays, if_neg Bool.false_ne_true] at hne
              rw [if_neg Bool.false_ne_true]
              by_cases hall : (s.group w.here.group).compositor = .all
              · have hall' : (s.group (w.take m).here.group).compositor = .all := hall
                rw [if_pos hall'] at hne ⊢
                exact (comesTo_moveOn hne).after (Pace.tick hcurrent hall).paces
              · have hall' : ¬(s.group (w.take m).here.group).compositor = .all := hall
                rw [if_neg hall'] at hne ⊢
                exact (comesTo_moveOn hne).after (Pace.fill hcurrent hall hstays).paces

theorem comesTo_stopFrom (n : Nat) : ∀ {fuel : Nat} {violations : List Violation} {w : Walk},
    (w.stopFrom s fuel violations).1 ≠ .error .endlessModel →
      ComesTo s (w.point n) (w.stopFrom s fuel violations) n
  | 0, _, w, hne => by
    unfold stopFrom at hne ⊢
    split at hne
    · rename_i hended
      rw [if_pos hended]
      exact ⟨_, .refl, rfl, rfl, fun _ => rfl⟩
    · exact absurd rfl hne
  | fuel + 1, violations, w, hne => by
    unfold stopFrom at hne ⊢
    by_cases hended : w.isEnded = true
    · rw [if_pos hended]
      exact ⟨_, .refl, rfl, rfl, fun _ => rfl⟩
    rw [if_neg hended] at hne ⊢
    have hadvance : (w.advance s false).1 ≠ .error .endlessModel →
        ComesTo s (w.point n) (w.advance s false) n := comesTo_advance
    cases hmoved : w.advance s false with
    | mk result w' =>
      rw [hmoved] at hne hadvance
      cases result with
      | ok more =>
          have hok : ∀ f, (Except.ok more : Except Failure (List Violation)) ≠ .error f :=
            fun f heq => by cases heq
          obtain ⟨_, hpaces, -, -, hpoint⟩ := hadvance (hok _)
          rw [hpoint fun f heq => absurd heq (hok f)] at hpaces
          exact (comesTo_stopFrom n hne).after hpaces
      | error f => exact hadvance hne

/-! ## Starting -/

/-- What the search for the first leaf keeps, and what it comes to. -/
theorem seekFirst_induction {P Q : Walk → Prop}
    (hnone : ∀ {w w'}, P w → w.nextItem s = (none, w') → w'.outer = [] → Q w')
    (hleave : ∀ {w w' w''}, P w → w.nextItem s = (none, w') → w'.leave? = some w'' → P w'')
    (hpass : ∀ {w w' g}, P w → w.nextItem s = (some (.group g), w') →
      (s.group g).members = [] → P w')
    (henter : ∀ {w w' w'' g}, P w → w.nextItem s = (some (.group g), w') →
      w'.enter s g = .ok w'' → P w'')
    (hstand : ∀ {w w' m}, P w → w.nextItem s = (some m, w') → m.isGroup = false →
      Q { w' with current := some m }) :
    ∀ {fuel : Nat} {w w' : Walk}, P w → w.seekFirst s fuel = (.ok (), w') → Q w'
  | 0, _, _, _, hseek => by cases hseek
  | fuel + 1, w, w', hw, hseek => by
    unfold seekFirst at hseek
    cases hnext : w.nextItem s with
    | mk item next =>
      rw [hnext] at hseek
      cases item with
      | none =>
          dsimp only at hseek
          cases houter : next.outer with
          | nil =>
              simp only [leave?, houter] at hseek
              cases hseek
              exact hnone hw hnext houter
          | cons f outer =>
              simp only [leave?, houter] at hseek
              refine seekFirst_induction hnone hleave hpass henter hstand
                (hleave hw hnext ?_) hseek
              simp only [leave?, houter]
      | some m =>
          cases m with
          | element e | wildcard x =>
              cases hseek
              exact hstand hw hnext rfl
          | group g =>
              dsimp only at hseek
              split at hseek
              · rename_i hnil
                exact seekFirst_induction hnone hleave hpass henter hstand
                  (hpass hw hnext (List.isEmpty_iff.1 hnil)) hseek
              · split at hseek
                · cases hseek
                · rename_i hentered
                  exact seekFirst_induction hnone hleave hpass henter hstand
                    (henter hw hnext hentered) hseek

/-! ## Walks after some children -/

/-- A walk after some children: how often it was told that a child matched, since it was made or
started anew. No operation since then was stopped at the bound on the depth of models. -/
inductive Course (s : Schema) : Walk → Nat → Prop
  | start {root : GroupId} {v : Version} {w : Walk} : Walk.start s root v = .ok w → Course s w 0
  | restart {w w' : Walk} : Reachable s w → w.restart s = (.ok (), w') → Course s w' 0
  | clear {w : Walk} : Reachable s w → Course s (w.clear s) 0
  | advance {w : Walk} {n : Nat} (matched : Bool) : Course s w n →
      (∀ f, (w.advance s matched).1 = .error f → ¬f.ExceedsDepth s) →
      Course s (w.advance s matched).2 (n + matched.toNat)
  | stop {w : Walk} {n : Nat} : Course s w n →
      (∀ f, (w.stop s).1 = .error f → ¬f.ExceedsDepth s) → Course s (w.stop s).2 n

namespace Course

theorem reachable (h : Course s w n) : Reachable s w := by
  induction h with
  | start hstart => exact .start hstart
  | restart hreachable heq =>
      have hnext := hreachable.restart
      rwa [heq] at hnext
  | clear hreachable => exact hreachable.clear
  | advance matched _ _ ih => exact ih.advance matched
  | stop _ _ ih => exact ih.stop

theorem comesTo_advance (hs : s.Built) (hv : s.version = .v10) (h : Course s w n)
    (matched : Bool) : ComesTo s (w.point n) (w.advance s matched) (n + matched.toNat) := by
  apply Walk.comesTo_advance
  intro hendless
  cases hcurrent : w.current with
  | none =>
      rw [Walk.advance, hcurrent] at hendless
      cases hendless
  | some m =>
      rcases advance_ends hs hv (h.reachable.lodged hs) hcurrent matched with
        ⟨_, hok⟩ | ⟨f, herror, _, _, hdepth, -⟩
      · rw [hok] at hendless
        cases hendless
      · rw [herror, hdepth] at hendless
        cases hendless

theorem comesTo_stop (hs : s.Built) (hv : s.version = .v10) (h : Course s w n) :
    ComesTo s (w.point n) (w.stop s) n := by
  apply comesTo_stopFrom
  intro hendless
  change (w.stop s).1 = _ at hendless
  rcases stop_ends hs hv (h.reachable.lodged hs) with
    ⟨⟨_, hok⟩, -⟩ | ⟨f, herror, _, _, hdepth, -⟩
  · rw [hendless] at hok
    cases hok
  · rw [hendless, hdepth] at herror
    cases herror

/-- What every pace keeps holds of all walks between two operations, if it holds at the start. -/
theorem keep {P : Point → Prop} (hs : s.Built) (hv : s.version = .v10)
    (hkept : ∀ {p q : Point}, Pace s p q → P p → P q)
    (hclear : ∀ w : Walk, P ((w.clear s).point 0))
    (hseek : ∀ w w' : Walk, (w.clear s).seekFirst s s.stepBudget = (.ok (), w') →
      P (w'.point 0)) (h : Course s w n) : P (w.point n) := by
  induction h with
  | start hstart =>
      unfold Walk.start Walk.restart at hstart
      dsimp only at hstart
      split at hstart <;> cases hstart
      rename_i heq
      exact hseek _ _ heq
  | restart _ heq => exact hseek _ _ heq
  | clear _ => exact hclear _
  | advance matched hcourse hdepth ih =>
      obtain ⟨_, hpaces, -, -, hpoint⟩ := hcourse.comesTo_advance hs hv matched
      rw [hpoint hdepth] at hpaces
      exact hpaces.keep hkept ih
  | stop hcourse hdepth ih =>
      obtain ⟨_, hpaces, -, -, hpoint⟩ := hcourse.comesTo_stop hs hv
      rw [hpoint hdepth] at hpaces
      exact hpaces.keep hkept ih

end Course

end Walk

end Conform
