import Conform.Model.Advance
import Mathlib.Logic.Relation
import Mathlib.Tactic.Common
/-!
# Single changes of a walk

Whatever a walk does is a chain of a few single changes: counts, marks, and ways into, through and
out of groups. What they keep is kept by every operation.
-/

namespace Conform

namespace Walk

/-- A single change of a walk. -/
inductive Hop (s : Schema) : Walk → Walk → Prop
  | recount (w : Walk) (counts ceilings : Tally) : Hop s w { w with counts, ceilings }
  | mark (w : Walk) (matched : Bool) : Hop s w { w with here := { w.here with matched } }
  | rewind (w : Walk) : Hop s w (w.rewind s)
  | skip {w : Walk} {rest : List Member} : rest <:+ w.here.rest →
      Hop s w { w with here := { w.here with rest } }
  /-- The next member is a leaf. -/
  | stand {w : Walk} {m : Member} {rest : List Member} : m :: rest <:+ w.here.rest →
      m.isGroup = false → Hop s w { w with here := { w.here with rest }, current := some m }
  /-- The next member is a group. -/
  | enter {w w' : Walk} {g : GroupId} {rest : List Member} : .group g :: rest <:+ w.here.rest →
      Walk.enter s { w with here := { w.here with rest } } g = .ok w' → Hop s w w'
  | leave {w w' : Walk} : w.leave? = some w' → Hop s w w'
  | halt (w : Walk) : Hop s w { w with current := none }

/-- A chain of changes. -/
abbrev Hops (s : Schema) : Walk → Walk → Prop := Relation.ReflTransGen (Hop s)

variable {s : Schema}

/-- What single changes keep is kept by a chain of them. -/
theorem Hops.keep {Inv : Walk → Prop} (hkept : ∀ {w w' : Walk}, Hop s w w' → Inv w → Inv w')
    {w w' : Walk} (h : Hops s w w') (hinv : Inv w) : Inv w' := by
  induction h with
  | refl => exact hinv
  | tail _ hop ih => exact hkept hop ih

theorem Hop.hops {w w' : Walk} (h : Hop s w w') : Hops s w w' := .single h

/-! ## Leaving members -/

theorem hops_restartGroup (w : Walk) : Hops s w (w.restartGroup s) :=
  (Hop.rewind w).hops.tail (.mark _ false)

theorem hops_countSequence (w : Walk) : Hops s w (w.countSequence s) := by
  unfold countSequence
  split
  · exact .refl
  · split
    · exact (Hop.recount w _ _).hops
    · exact (Hop.recount w _ _).hops

theorem hops_closeInSequence (w : Walk) (m : Member) : Hops s w (w.closeInSequence s m).2 := by
  unfold closeInSequence
  dsimp only
  split
  · exact hops_countSequence w
  · exact .refl

theorem hops_closeInChoice (w : Walk) (m : Member) : Hops s w (w.closeInChoice s m).2 := by
  unfold closeInChoice
  split
  · exact .refl
  · have hcount : Hops s w
        { w.countChoice s m with counts := (w.countChoice s m).counts.set m 0 } :=
      (Hop.recount w _ _).hops
    exact hcount.trans (hops_restartGroup _)

theorem hops_closeItem : ∀ (outer : List Frame) (m : Member) (w : Walk),
    Hops s { w with outer } (closeItem s outer m w).2
  | outer, m, w => by
    unfold closeItem
    dsimp only
    split
    · exact hops_closeInChoice _ m
    · exact .refl
    · split
      · exact (Hop.mark { w with outer } true).hops.trans (hops_closeInSequence _ m)
      · split
        · exact .refl
        · split
          · rename_i f outer _
            have hleave : Hop s { w with outer := f :: outer } { w with here := f, outer } :=
              .leave rfl
            exact hleave.hops.trans (hops_closeItem outer _ { w with here := f, outer := f :: outer })
          · split <;> exact .refl

theorem hops_closeLeaf (w : Walk) (m : Member) : Hops s w (w.closeLeaf s m).2 :=
  hops_closeItem w.outer m w

theorem hops_closeGroup (w : Walk) : Hops s w (w.closeGroup s).2 := by
  unfold closeGroup
  split
  · exact .refl
  · rename_i f outer houter
    have hleave : Hop s w { w with here := f, outer } := .leave (by simp [leave?, houter])
    exact hleave.hops.trans (hops_closeItem outer _ { w with here := f })

/-! ## The next member -/

/-- What comes next is a member that is still to come, and the walk goes on behind it. -/
theorem nextItem_suffix {w w' : Walk} {item : Option Member} (h : w.nextItem s = (item, w')) :
    ∃ rest, item.toList ++ rest <:+ w.here.rest ∧
      w' = { w with here := { w.here with rest } } := by
  have hsuffix := List.dropWhile_suffix (l := w.here.rest) (w.isPassed s)
  unfold nextItem at h
  split at h
  · cases h
    exact ⟨[], List.nil_suffix, rfl⟩
  · rename_i m rest hrest
    cases h
    rw [hrest] at hsuffix
    exact ⟨rest, hsuffix, rfl⟩

end Walk

namespace Move

/-- The passage to which a step leads. -/
def passage : Move → Passage
  | .again p | .placed p | .ended p | .failed _ p => p

end Move

/-- What ends a walk before it comes to a leaf: the bound on the depth of models, or its budget. -/
inductive Failure.EndsWalk (s : Schema) : Failure → Prop
  | depth {depth : Nat} (group : Option String) : s.limits.maxModelDepth < depth →
      EndsWalk s (.modelDepth depth s.limits.maxModelDepth group)
  | budget : EndsWalk s .endlessModel

namespace Walk

variable {s : Schema}

theorem endsWalk_of_enter {w : Walk} {g : GroupId} {f : Failure} (h : w.enter s g = .error f) :
    f.EndsWalk s ∧ f ≠ .endlessModel := by
  unfold enter at h
  split at h
  · rename_i hdepth
    cases h
    exact ⟨.depth _ (by simpa [Limits.isModelDepthExceeded] using hdepth), nofun⟩
  · cases h

end Walk

namespace Passage

variable {s : Schema} {p : Passage}

open Walk

/-! ## Steps -/

theorem hops_afterClose (p : Passage) (r : Option Bool × Walk) :
    (p.afterClose r).passage.walk = r.2 := by
  unfold afterClose
  split <;> rfl

theorem hops_leaveUnmatched (p : Passage) :
    Hops s p.walk (p.leaveUnmatched s).passage.walk := by
  unfold leaveUnmatched
  dsimp only
  generalize hw : (if ((s.group p.walk.here.group).compositor = .all && p.walk.isSatisfied s) = true
    then { p.walk with counts := p.walk.counts.set p.walk.hereMember 1 } else p.walk : Walk) = w
  have hcount : Hops s p.walk w := by
    rw [← hw]
    split
    · exact (Hop.recount p.walk _ _).hops
    · exact .refl
  refine hcount.trans ?_
  have hclose := hops_closeGroup (s := s) w
  generalize w.closeGroup s = closed at hclose
  obtain ⟨missing, w'⟩ := closed
  cases missing with
  | none => exact hclose
  | some missing =>
      dsimp only
      split
      · exact hclose
      · exact hclose

theorem hops_leaveAll (p : Passage) : Hops s p.walk (p.leaveAll s).passage.walk := by
  unfold leaveAll
  dsimp only
  split
  · generalize hq : (if (s.group p.walk.here.group).occurs.min = 0 then
      p.report (p.walk.violation s p.walk.hereMember (p.walk.count p.walk.hereMember)) else p) = q
    have hwalk : q.walk = p.walk := by
      rw [← hq]
      split <;> rfl
    rw [← hwalk]
    cases hleave : q.walk.leave? with
    | none => exact .refl
    | some w => exact (Hop.leave hleave).hops
  · split
    · exact hops_restartGroup _
    · have hcount : Hops s p.walk
          { p.walk with counts := p.walk.counts.set p.walk.hereMember 1 } :=
        (Hop.recount p.walk _ _).hops
      split
      · exact hcount
      · rw [hops_afterClose]
        exact hcount.trans (hops_closeGroup _)

theorem hops_leaveEnd (p : Passage) : Hops s p.walk (p.leaveEnd s).passage.walk := by
  unfold leaveEnd
  split
  · exact hops_leaveUnmatched p
  · split
    · exact hops_leaveAll p
    · exact hops_restartGroup _

theorem hops_step (p : Passage) : Hops s p.walk (p.step s).passage.walk := by
  unfold step
  split
  · rw [hops_afterClose]
    exact hops_closeGroup p.walk
  · cases hnext : p.walk.nextItem s with
    | mk item w =>
      obtain ⟨rest, hsuffix, rfl⟩ := nextItem_suffix hnext
      cases item with
      | none =>
        have hskip : Hop s p.walk { p.walk with here := { p.walk.here with rest } } := .skip hsuffix
        exact hskip.hops.trans (hops_leaveEnd ⟨_, none, p.violations⟩)
      | some m =>
        have hskip : Hop s p.walk { p.walk with here := { p.walk.here with rest } } :=
          .skip ((List.suffix_cons m rest).trans hsuffix)
        have hplace : m.isGroup = false → ∀ last : Option Member, Hops s p.walk
            (place s { p with walk := { p.walk with here := { p.walk.here with rest } }, last }
              m).passage.walk := by
          intro hm last
          have hstand := (Hop.stand hsuffix hm).hops (s := s)
          unfold place
          dsimp only
          split
          · exact hstand.tail (.recount _ _ _)
          · exact hstand
        cases m with
        | element e => exact hplace rfl _
        | wildcard x => exact hplace rfl _
        | group g =>
            dsimp only
            unfold enterGroup
            cases henter : Walk.enter s { p.walk with here := { p.walk.here with rest } } g with
            | error f => exact hskip.hops
            | ok w => exact (Hop.enter hsuffix henter).hops.tail (.recount _ _ _)

/-! ## Failures of steps -/

theorem afterClose_ne_failed {f : Failure} {p' : Passage} (p : Passage) (r : Option Bool × Walk) :
    p.afterClose r ≠ .failed f p' := by
  unfold afterClose
  split <;> nofun

theorem leaveUnmatched_ne_failed {f : Failure} {p' : Passage} (p : Passage) :
    p.leaveUnmatched s ≠ .failed f p' := by
  intro h
  unfold leaveUnmatched at h
  dsimp only at h
  generalize (if ((s.group p.walk.here.group).compositor = .all && p.walk.isSatisfied s) = true
    then { p.walk with counts := p.walk.counts.set p.walk.hereMember 1 } else p.walk : Walk) = w at h
  generalize w.closeGroup s = closed at h
  obtain ⟨missing, w'⟩ := closed
  cases missing with
  | none => cases h
  | some missing =>
      dsimp only at h
      split at h <;> cases h

theorem leaveAll_ne_failed {f : Failure} {p' : Passage} (p : Passage) :
    p.leaveAll s ≠ .failed f p' := by
  intro h
  unfold leaveAll at h
  dsimp only at h
  split at h
  · split at h <;> cases h
  · split at h
    · cases h
    · split at h
      · cases h
      · exact afterClose_ne_failed _ _ h

/-- A step only fails at the bound on the depth. -/
theorem endsWalk_of_step {f : Failure} {p' : Passage} (h : p.step s = .failed f p') :
    f.EndsWalk s ∧ f ≠ .endlessModel := by
  unfold step at h
  split at h
  · exact absurd h (afterClose_ne_failed _ _)
  · dsimp only at h
    split at h
    · unfold enterGroup at h
      split at h
      · rename_i henter
        cases h
        exact endsWalk_of_enter henter
      · cases h
    · unfold place at h
      dsimp only at h
      split at h <;> cases h
    · unfold leaveEnd at h
      split at h
      · exact absurd h (leaveUnmatched_ne_failed _)
      · split at h
        · exact absurd h (leaveAll_ne_failed _)
        · cases h

theorem hops_run : ∀ (fuel : Nat) (p : Passage), Hops s p.walk (run s fuel p).passage.walk
  | 0, _ => .refl
  | fuel + 1, p => by
    have hstep := hops_step (s := s) p
    unfold run
    generalize p.step s = move at hstep
    cases move with
    | again p' => exact hstep.trans (hops_run fuel p')
    | placed | ended | failed => exact hstep

theorem endsWalk_of_run {f : Failure} {p' : Passage} : ∀ {fuel : Nat} {p : Passage},
    run s fuel p = .failed f p' → f.EndsWalk s
  | 0, _, h => by
    cases h
    exact .budget
  | fuel + 1, p, h => by
    unfold run at h
    split at h
    · exact endsWalk_of_run h
    · exact (endsWalk_of_step h).1

end Passage

namespace Walk

variable {s : Schema}

/-! ## Advancing -/

theorem hops_finish (p : Passage) : Hops s p.walk (finish s p).2 := by
  unfold finish
  dsimp only
  split
  · exact (Hop.halt p.walk).hops
  · split <;> exact (Hop.halt p.walk).hops

theorem hops_moveOn (w : Walk) (m : Member) : Hops s w (w.moveOn s m).2 := by
  have hclose := hops_closeLeaf (s := s) w m
  unfold moveOn
  dsimp only
  split
  · rename_i w' heq
    rw [heq] at hclose
    exact hclose.trans (hops_finish ⟨w', none, []⟩)
  · rename_i missing w' heq
    rw [heq] at hclose
    have hrun := Passage.hops_run (s := s) s.stepBudget
      ⟨w', none, if missing then [⟨m, w.count m, [m]⟩] else []⟩
    generalize Passage.run s s.stepBudget _ = move at hrun
    cases move with
    | ended p => exact hclose.trans (hrun.trans (hops_finish p))
    | placed p => exact hclose.trans hrun
    | again p => exact hclose.trans hrun
    | failed f p => exact hclose.trans hrun

theorem hops_take (w : Walk) (m : Member) : Hops s w (w.take m) :=
  (Hop.recount w (w.counts.add m 1) w.ceilings).hops.tail (.mark _ true)

theorem hops_advance (w : Walk) (matched : Bool) : Hops s w (w.advance s matched).2 := by
  unfold advance
  split
  · exact .refl
  · rename_i m _
    split
    · have htake := hops_take (s := s) w m
      dsimp only
      split
      · exact htake
      · split
        · exact htake.trans ((Hop.rewind _).hops.trans (hops_moveOn _ m))
        · exact htake.trans (hops_moveOn _ m)
    · exact hops_moveOn w m

theorem endsWalk_of_moveOn {w w' : Walk} {m : Member} {f : Failure}
    (h : w.moveOn s m = (.error f, w')) : f.EndsWalk s := by
  unfold moveOn at h
  dsimp only at h
  split at h
  · cases h
  · split at h
    · cases h
    · cases h
    · cases h
      exact .budget
    · rename_i hrun
      cases h
      exact Passage.endsWalk_of_run hrun

/-- A walk that is not over only fails at the bound on the depth or at its budget. -/
theorem endsWalk_of_advance {w w' : Walk} {m : Member} {matched : Bool} {f : Failure}
    (hcurrent : w.current = some m) (h : w.advance s matched = (.error f, w')) :
    f.EndsWalk s := by
  unfold advance at h
  simp only [hcurrent] at h
  split at h
  · split at h
    · cases h
    · split at h <;> exact endsWalk_of_moveOn h
  · exact endsWalk_of_moveOn h

theorem hops_stopFrom : ∀ (fuel : Nat) (violations : List Violation) (w : Walk),
    Hops s w (w.stopFrom s fuel violations).2
  | 0, _, w => by
    unfold stopFrom
    split <;> exact .refl
  | fuel + 1, violations, w => by
    have hadvance := hops_advance (s := s) w false
    unfold stopFrom
    split
    · exact .refl
    · split
      · rename_i heq
        rw [heq] at hadvance
        exact hadvance.trans (hops_stopFrom fuel _ _)
      · rename_i heq
        rw [heq] at hadvance
        exact hadvance

theorem endsWalk_of_stopFrom {w' : Walk} {f : Failure} : ∀ {fuel : Nat}
    {violations : List Violation} {w : Walk},
    w.stopFrom s fuel violations = (.error f, w') → f.EndsWalk s
  | 0, _, w, h => by
    unfold stopFrom at h
    split at h
    · cases h
    · cases h
      exact .budget
  | fuel + 1, _, w, h => by
    unfold stopFrom at h
    split at h
    · cases h
    · rename_i hended
      split at h
      · exact endsWalk_of_stopFrom h
      · rename_i hadvance
        cases h
        cases hcurrent : w.current with
        | none => exact absurd (by simp [isEnded, hcurrent]) hended
        | some m => exact endsWalk_of_advance hcurrent hadvance

/-! ## Starting -/

theorem hops_seekFirst : ∀ (fuel : Nat) (w : Walk), Hops s w (w.seekFirst s fuel).2
  | 0, _ => .refl
  | fuel + 1, w => by
    unfold seekFirst
    cases hnext : w.nextItem s with
    | mk item w' =>
      obtain ⟨rest, hsuffix, rfl⟩ := nextItem_suffix hnext
      cases item with
      | none =>
          have hskip := (Hop.skip hsuffix).hops (s := s)
          dsimp only
          split
          · exact hskip
          · rename_i hleave
            exact (hskip.tail (.leave hleave)).trans (hops_seekFirst fuel _)
      | some m =>
          cases m with
          | element e => exact (Hop.stand hsuffix rfl).hops
          | wildcard x => exact (Hop.stand hsuffix rfl).hops
          | group g =>
              have hskip : Hop s w { w with here := { w.here with rest } } :=
                .skip ((List.suffix_cons _ rest).trans hsuffix)
              dsimp only
              split
              · exact hskip.hops.trans (hops_seekFirst fuel _)
              · split
                · exact hskip.hops
                · rename_i henter
                  exact (Hop.enter hsuffix henter).hops.trans (hops_seekFirst fuel _)

theorem endsWalk_of_seekFirst {w' : Walk} {f : Failure} : ∀ {fuel : Nat} {w : Walk},
    w.seekFirst s fuel = (.error f, w') → f.EndsWalk s
  | 0, _, h => by
    cases h
    exact .budget
  | fuel + 1, w, h => by
    unfold seekFirst at h
    split at h
    · split at h
      · cases h
      · exact endsWalk_of_seekFirst h
    · split at h
      · exact endsWalk_of_seekFirst h
      · split at h
        · rename_i henter
          cases h
          exact (endsWalk_of_enter henter).1
        · exact endsWalk_of_seekFirst h
    · cases h

/-- A walk at its start has come there by single changes from a cleared walk. -/
theorem hops_start {root : GroupId} {v : Version} {w : Walk} (h : Walk.start s root v = .ok w) :
    Hops s ⟨root, v, ⟨root, items s v root, false⟩, [], Tally.zero, Tally.zero, none⟩ w := by
  unfold Walk.start restart clear at h
  dsimp only at h
  split at h <;> cases h
  rename_i hseek
  have hops := hops_seekFirst (s := s) s.stepBudget
    ⟨root, v, ⟨root, items s v root, false⟩, [], Tally.zero, Tally.zero, none⟩
  rw [hseek] at hops
  exact hops

theorem endsWalk_of_start {root : GroupId} {v : Version} {f : Failure}
    (h : Walk.start s root v = .error f) : f.EndsWalk s := by
  unfold Walk.start restart at h
  dsimp only at h
  split at h
  · cases h
  · rename_i hseek
    cases h
    exact endsWalk_of_seekFirst hseek

/-! ## The root of a walk -/

theorem root_of_hop {w w' : Walk} (h : Hop s w w') : w'.root = w.root := by
  cases h with
  | recount | mark | rewind | skip | stand | halt => rfl
  | enter _ henter =>
      unfold enter at henter
      split at henter <;> cases henter
      rfl
  | leave hleave =>
      unfold leave? at hleave
      split at hleave <;> cases hleave
      rfl

/-- A walk stays in the model of its root group. -/
theorem root_of_hops {w w' : Walk} (h : Hops s w w') : w'.root = w.root := by
  induction h with
  | refl => rfl
  | tail _ hop ih => exact (root_of_hop hop).trans ih

theorem root_advance (w : Walk) (matched : Bool) : (w.advance s matched).2.root = w.root :=
  root_of_hops (hops_advance w matched)

theorem root_start {root : GroupId} {v : Version} {w : Walk} (h : Walk.start s root v = .ok w) :
    w.root = root :=
  root_of_hops (hops_start h)

end Walk

end Conform
