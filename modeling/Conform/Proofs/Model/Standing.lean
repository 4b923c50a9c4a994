import Conform.Proofs.Model.Budget
import Conform.Proofs.Schema.Sample
/-!
# Where walks stand

The groups in which a walk stands are a path from the root group, no longer than the bound on the
depth of models. Between two operations the walk stands right behind its leaf, or it is over and
back in the root group. Wherever it is, it starts anew like a walk that has just been made.
-/

namespace Conform

namespace Schema

/-- The members through which a cursor goes in a group: none if the group must not occur, in version
1.1 the leaves of an `all` group, else the members of the group. -/
def cursorRange (s : Schema) (v : Version) (g : GroupId) : List Member :=
  if (s.group g).occurs.max = some 0 then []
  else if (s.group g).compositor = .all ∧ v = .v11 then s.leaves g
  else (s.group g).members

/-- A group is a member of the next one. -/
def IsMemberOf (s : Schema) (inner outer : GroupId) : Prop := .group inner ∈ (s.group outer).members

end Schema

namespace Walk

/-- The groups in which a walk stands, the innermost first. -/
def path (w : Walk) : List GroupId := (w.here :: w.outer).map Frame.group

/-- A walk as it is between two operations. -/
structure Standing (s : Schema) (w : Walk) : Prop where
  /-- The groups are a path down from the root group. -/
  path : List.IsChain s.IsMemberOf w.path
  root : w.path.getLast? = some w.root
  depth : w.outer.length ≤ s.limits.maxModelDepth
  /-- What is left of a group is the end of the members of that group. -/
  cursor : ∀ f ∈ w.here :: w.outer, ∃ before, before ++ f.rest = s.cursorRange w.version f.group
  /-- The leaf is the member right before the cursor of the innermost group. -/
  current : ∀ m ∈ w.current, m.isGroup = false ∧
    ∃ before, before ++ m :: w.here.rest = s.cursorRange w.version w.here.group
  ended : w.current = none → w.outer = [] ∧ w.here.group = w.root

/-- A walk that has come about from a new one by operations that have not failed. -/
inductive Reached (s : Schema) (root : GroupId) (v : Version) : Walk → Prop
  | start {w : Walk} : Walk.start s root v = .ok w → Reached s root v w
  | advance {w w' : Walk} {matched : Bool} {violations : List Violation} :
      Reached s root v w → w.advance s matched = (.ok violations, w') → Reached s root v w'
  | stop {w w' : Walk} {violations : List Violation} :
      Reached s root v w → w.stop s = (.ok violations, w') → Reached s root v w'
  | restart {w w' : Walk} :
      Reached s root v w → w.restart s = (.ok (), w') → Reached s root v w'
  | clear {w : Walk} : Reached s root v w → Reached s root v (w.clear s)

variable {s : Schema} {w w' : Walk}

theorem items_eq_cursorRange (s : Schema) (v : Version) (g : GroupId) :
    items s v g = s.cursorRange v g := by
  unfold items Schema.cursorRange Schema.unordered Occurs.isEmpty
  cases v <;> simp

/-! ## The way from the root -/

/-- The outermost group is the root, and no more groups are entered than the bound admits. -/
structure Rooted (s : Schema) (g : GroupId) (v : Version) (w : Walk) : Prop where
  root : w.root = g
  version : w.version = v
  last : w.path.getLast? = some g
  depth : w.outer.length ≤ s.limits.maxModelDepth

variable {root : GroupId} {v : Version}

theorem Rooted.of_hop (hop : Hop s w w') (h : w.Rooted s root v) : w'.Rooted s root v := by
  obtain ⟨hroot, hversion, hlast, hdepth⟩ := h
  cases hop with
  | recount | mark | rewind | skip | stand | halt => exact ⟨hroot, hversion, hlast, hdepth⟩
  | enter _ henter =>
      unfold enter at henter
      split at henter
      · cases henter
      rename_i hroom
      cases henter
      refine ⟨hroot, hversion, ?_, by simpa [Limits.isModelDepthExceeded] using hroom⟩
      simpa [path] using hlast
  | leave hleave =>
      unfold leave? at hleave
      split at hleave
      · cases hleave
      rename_i f outer houter
      cases hleave
      rw [houter, List.length_cons] at hdepth
      refine ⟨hroot, hversion, ?_, (Nat.le_succ _).trans hdepth⟩
      simpa [path, houter] using hlast

theorem Rooted.of_hops (hops : Hops s w w') (h : w.Rooted s root v) : w'.Rooted s root v :=
  hops.keep (fun hop => Rooted.of_hop hop) h

theorem rooted_clear (hroot : w.root = root) (hversion : w.version = v) :
    (w.clear s).Rooted s root v :=
  ⟨hroot, hversion, congrArg some hroot, Nat.zero_le _⟩

theorem rooted_start (h : Walk.start s root v = .ok w) : w.Rooted s root v :=
  .of_hops (hops_start h) ⟨rfl, rfl, rfl, Nat.zero_le _⟩

/-- What single changes keep holds of all walks that are reached, if it holds of cleared ones. -/
theorem Reached.keep {P : Walk → Prop} (hops : ∀ {w w' : Walk}, Hops s w w' → P w → P w')
    (hclear : ∀ w : Walk, P (w.clear s)) (h : w.Reached s root v) :
    P w ∧ w.Rooted s root v := by
  have hboth : ∀ {w w'}, Hops s w w' → P w ∧ w.Rooted s root v → P w' ∧ w'.Rooted s root v :=
    fun h hw => ⟨hops h hw.1, hw.2.of_hops h⟩
  induction h with
  | start hstart =>
      have hnew := hclear ⟨root, v, default, [], Tally.zero, Tally.zero, none⟩
      exact ⟨hops (hops_start hstart) hnew, rooted_start hstart⟩
  | @advance w _ matched _ _ heq ih =>
      have hadvance := hops_advance (s := s) w matched
      rw [heq] at hadvance
      exact hboth hadvance ih
  | @stop w _ _ _ heq ih =>
      have hstop := hops_stopFrom (s := s) s.stepBudget [] w
      rw [show w.stopFrom s s.stepBudget [] = _ from heq] at hstop
      exact hboth hstop ih
  | @restart w _ _ heq ih =>
      have hseek := hops_seekFirst (s := s) s.stepBudget (w.clear s)
      rw [show (w.clear s).seekFirst s s.stepBudget = _ from heq] at hseek
      exact hboth hseek ⟨hclear w, rooted_clear ih.2.root ih.2.version⟩
  | @clear w _ ih => exact ⟨hclear w, rooted_clear ih.2.root ih.2.version⟩

theorem Reached.rooted (h : w.Reached s root v) : w.Rooted s root v :=
  (h.keep (P := fun _ => True) (fun _ _ => trivial) fun _ => trivial).2

theorem Reached.reachable (h : w.Reached s root v) : Reachable s w := by
  induction h with
  | start hstart => exact .start hstart
  | @advance _ _ matched _ _ heq ih =>
      have hnext := ih.advance matched
      rwa [heq] at hnext
  | stop _ heq ih =>
      have hnext := ih.stop
      rwa [heq] at hnext
  | restart _ heq ih =>
      have hnext := ih.restart
      rwa [heq] at hnext
  | clear _ ih => exact ih.clear

/-! ## Coming to rest -/

/-- The walk stands right behind a leaf. -/
def IsBehindLeaf (s : Schema) (w : Walk) : Prop :=
  ∃ m, w.current = some m ∧ m :: w.here.rest <:+ items s w.version w.here.group

/-- The walk stands right behind its leaf, or it is over with no group left. -/
def Rests (s : Schema) (w : Walk) : Prop :=
  w.IsBehindLeaf s ∨ w.current = none ∧ w.outer = []

/-- There is no group left where a member or a group cannot be closed. -/
theorem outer_of_closeItem : ∀ {outer : List Frame} {m : Member} {w w' : Walk},
    closeItem s outer m w = (none, w') → w'.outer = []
  | outer, m, w, w', h => by
    unfold closeItem at h
    dsimp only at h
    split at h
    · cases h
    · cases h
    · split at h
      · cases h
      · split at h
        · cases h
        · split at h
          · exact outer_of_closeItem h
          · split at h <;> cases h
            rfl

theorem outer_of_closeGroup (h : w.closeGroup s = (none, w')) : w'.outer = [] := by
  unfold closeGroup at h
  split at h
  · rename_i houter
    cases h
    exact houter
  · exact outer_of_closeItem h

end Walk

namespace Move

/-- Steps that come to rest do so right behind a leaf or where no group is left. -/
def Rests (s : Schema) : Move → Prop
  | .placed p => p.walk.IsBehindLeaf s
  | .ended p => p.walk.outer = []
  | .again _ | .failed .. => True

end Move

namespace Passage

open Walk

variable {s : Schema} {p : Passage}

theorem rests_afterClose {r : Option Bool × Walk} (h : ∀ w, r = (none, w) → w.outer = []) :
    (p.afterClose r).Rests s := by
  obtain ⟨missing, w⟩ := r
  cases missing with
  | none => exact h w rfl
  | some missing => trivial

theorem rests_leaveUnmatched (p : Passage) : (p.leaveUnmatched s).Rests s := by
  unfold leaveUnmatched
  dsimp only
  generalize (if ((s.group p.walk.here.group).compositor = .all && p.walk.isSatisfied s) = true
    then { p.walk with counts := p.walk.counts.set p.walk.hereMember 1 } else p.walk : Walk) = w
  split
  · rename_i hclose
    exact outer_of_closeGroup hclose
  · split <;> trivial

theorem rests_leaveAll (p : Passage) : (p.leaveAll s).Rests s := by
  unfold leaveAll
  dsimp only
  split
  · split
    · rename_i hleave
      have houter : p.walk.outer = [] := by
        unfold leave? at hleave
        split at hleave
        · assumption
        · cases hleave
      split <;> exact houter
    · trivial
  · split
    · trivial
    · split
      · trivial
      · exact rests_afterClose fun w hclose => outer_of_closeGroup hclose

theorem rests_step (hw : p.walk.Lodged s) : (p.step s).Rests s := by
  unfold step
  split
  · exact rests_afterClose fun w hclose => outer_of_closeGroup hclose
  cases hnext : p.walk.nextItem s with
  | mk item w =>
    obtain ⟨rest, hsuffix, rfl⟩ := nextItem_suffix hnext
    have hplace : ∀ m last, item = some m → (place s
        { p with walk := { p.walk with here := { p.walk.here with rest } }, last } m).Rests s := by
      rintro m last rfl
      unfold place
      dsimp only
      split <;> exact ⟨m, rfl, hsuffix.trans (hw.rest _ List.mem_cons_self)⟩
    cases item with
    | none =>
        dsimp only
        unfold leaveEnd
        split
        · exact rests_leaveUnmatched _
        · split
          · exact rests_leaveAll _
          · trivial
    | some m =>
        cases m with
        | element e => exact hplace _ _ rfl
        | wildcard x => exact hplace _ _ rfl
        | group g =>
            dsimp only
            unfold enterGroup
            split <;> trivial

theorem rests_run (hs : s.Built) : ∀ (fuel : Nat) {p : Passage}, p.walk.Lodged s →
    (run s fuel p).Rests s
  | 0, _, _ => trivial
  | fuel + 1, p, hw => by
    have hstep := rests_step hw
    have hops := hops_step (s := s) p
    unfold run
    generalize p.step s = move at hstep hops
    cases move with
    | again p' => exact rests_run hs fuel (hw.of_hops hs hops)
    | placed | ended | failed => exact hstep

end Passage

namespace Walk

variable {s : Schema} {root : GroupId} {v : Version} {w w' : Walk}

theorem rests_finish {p : Passage} (h : p.walk.outer = []) : (finish s p).2.Rests s := by
  refine .inr ⟨current_finish p, ?_⟩
  unfold finish
  dsimp only
  split
  · exact h
  · split <;> exact h

theorem rests_moveOn (hs : s.Built) (hw : w.Lodged s) {m : Member} {violations : List Violation}
    (h : w.moveOn s m = (.ok violations, w')) : w'.Rests s := by
  have hclosed := hw.of_hops hs (hops_closeLeaf (s := s) w m)
  unfold moveOn at h
  dsimp only at h
  split at h
  · rename_i closed hclose
    cases h
    exact rests_finish (outer_of_closeItem hclose)
  · rename_i missing closed hclose
    rw [hclose] at hclosed
    have hrun := Passage.rests_run hs s.stepBudget
      (p := ⟨closed, none, if missing then [⟨m, w.count m, [m]⟩] else []⟩) hclosed
    split at h
    · rename_i hmove
      cases h
      rw [hmove] at hrun
      exact .inl hrun
    · rename_i hmove
      cases h
      rw [hmove] at hrun
      exact rests_finish hrun
    · cases h
    · cases h

theorem rests_advance (hs : s.Built) (hw : w.Lodged s) (hrests : w.Rests s) {matched : Bool}
    {violations : List Violation} (h : w.advance s matched = (.ok violations, w')) :
    w'.Rests s := by
  have htaken : ∀ m, (w.take m).Lodged s := fun m => hw.of_hops hs (hops_take w m)
  unfold advance at h
  cases hcurrent : w.current with
  | none =>
      rw [hcurrent] at h
      cases h
  | some m =>
      simp only [hcurrent] at h
      split at h
      · split at h
        · -- the walk stays on its leaf
          cases h
          obtain ⟨x, hx, hsuffix⟩ := hrests.resolve_right (by simp [hcurrent])
          exact .inl ⟨x, hx, hsuffix⟩
        · split at h
          · exact rests_moveOn hs ((htaken m).of_hop hs (.rewind _)) h
          · exact rests_moveOn hs (htaken m) h
      · exact rests_moveOn hs hw h

theorem rests_stopFrom (hs : s.Built) {all : List Violation} : ∀ {fuel : Nat}
    {violations : List Violation} {w : Walk}, w.Lodged s → w.Rests s →
      w.stopFrom s fuel violations = (.ok all, w') → w'.Rests s
  | 0, _, w, _, hrests, h => by
    unfold stopFrom at h
    split at h <;> cases h
    exact hrests
  | fuel + 1, _, w, hw, hrests, h => by
    have hops := hops_advance (s := s) w false
    unfold stopFrom at h
    split at h
    · cases h
      exact hrests
    · split at h
      · rename_i heq
        rw [heq] at hops
        exact rests_stopFrom hs (hw.of_hops hs hops) (rests_advance hs hw hrests heq) h
      · cases h

/-- The first leaf is found with the cursor behind it; without one the walk is over. -/
theorem rests_seekFirst (hs : s.Built) : ∀ {fuel : Nat} {w : Walk}, w.Lodged s →
    w.current = none → w.seekFirst s fuel = (.ok (), w') → w'.Rests s
  | 0, _, _, _, h => by cases h
  | fuel + 1, w, hw, hcurrent, h => by
    unfold seekFirst at h
    cases hnext : w.nextItem s with
    | mk item next =>
      obtain ⟨rest, hsuffix, rfl⟩ := nextItem_suffix hnext
      rw [hnext] at h
      cases item with
      | none =>
          have hskip := hw.of_hop hs (.skip hsuffix)
          dsimp only at h
          split at h
          · rename_i hleave
            cases h
            unfold leave? at hleave
            split at hleave
            · exact .inr ⟨hcurrent, by assumption⟩
            · cases hleave
          · rename_i hleave
            refine rests_seekFirst hs (hskip.of_hop hs (.leave hleave)) ?_ h
            unfold leave? at hleave
            split at hleave <;> cases hleave
            exact hcurrent
      | some m =>
          have hstand : ∀ w', (.ok (), { w with
              here := { w.here with rest }, current := some m }) = (Except.ok (ε := Failure) (), w') →
              w'.Rests s := by
            rintro _ ⟨⟩
            exact .inl ⟨m, rfl, hsuffix.trans (hw.rest _ List.mem_cons_self)⟩
          cases m with
          | element e => exact hstand _ h
          | wildcard x => exact hstand _ h
          | group g =>
              have hskip := hw.of_hop hs (.skip ((List.suffix_cons (Member.group g) rest).trans hsuffix))
              dsimp only at h
              split at h
              · exact rests_seekFirst hs hskip hcurrent h
              · split at h
                · cases h
                · rename_i henter
                  refine rests_seekFirst hs (hw.of_hop hs (.enter hsuffix henter)) ?_ h
                  unfold enter at henter
                  split at henter <;> cases henter
                  exact hcurrent

/-- A walk starts anew where a new walk starts. -/
theorem restart_eq_of_start {w₀ : Walk} (hstart : Walk.start s w.root w.version = .ok w₀) :
    w.restart s = (.ok (), w₀) := by
  unfold Walk.start at hstart
  dsimp only at hstart
  split at hstart
  · rename_i hrestart
    cases hstart
    exact hrestart
  · cases hstart

theorem Reached.starts (h : w.Reached s root v) : ∃ w₀, Walk.start s root v = .ok w₀ := by
  induction h with
  | start hstart => exact ⟨_, hstart⟩
  | advance _ _ ih | stop _ _ ih | restart _ _ ih | clear _ ih => exact ih

theorem rests_start (hs : s.Built) (h : Walk.start s root v = .ok w) : w.Rests s := by
  unfold Walk.start restart at h
  dsimp only at h
  split at h
  · rename_i hseek
    cases h
    exact rests_seekFirst hs (lodged_clear _) rfl hseek
  · cases h

theorem Reached.rests (hs : s.Built) (h : w.Reached s root v) : w.Rests s := by
  induction h with
  | start hstart => exact rests_start hs hstart
  | advance hreached heq ih => exact rests_advance hs (hreached.reachable.lodged hs) ih heq
  | stop hreached heq ih => exact rests_stopFrom hs (hreached.reachable.lodged hs) ih heq
  | restart _ heq _ => exact rests_seekFirst hs (lodged_clear _) rfl heq
  | clear _ _ => exact .inr ⟨rfl, rfl⟩

end Walk

theorem Schema.Around.isChain {s : Schema} {g : GroupId} {outer : List Frame}
    (h : s.Around g outer) : List.IsChain s.IsMemberOf (g :: outer.map Frame.group) := by
  induction h with
  | root => exact .singleton _
  | nested hmem _ ih => exact .cons_cons hmem ih

namespace Walk

variable {s : Schema} {root : GroupId} {v : Version} {w w' : Walk}

/-- Whatever operations have led to it, a walk stands on a path from its root group that is no
longer than the bound on the depth, in each group before an end of the members of that group, and in
the innermost group right behind its leaf; without a leaf it is back in the root group. It starts
anew where a new walk starts. -/
theorem standing_of_reached (hs : s.Built) (h : w.Reached s root v) :
    w.Standing s ∧ w.root = root ∧ w.version = v ∧
      ∃ w₀, Walk.start s root v = .ok w₀ ∧ w.restart s = (.ok (), w₀) := by
  have hrooted := h.rooted
  have hlodged := h.reachable.lodged hs
  obtain ⟨w₀, hstart⟩ := h.starts
  refine ⟨⟨hlodged.around.isChain, hrooted.root ▸ hrooted.last, hrooted.depth, ?_, ?_, ?_⟩,
    hrooted.root, hrooted.version, w₀, hstart, ?_⟩
  · intro f hf
    obtain ⟨before, heq⟩ := hlodged.rest f hf
    exact ⟨before, heq.trans (items_eq_cursorRange ..)⟩
  · intro m hm
    obtain ⟨x, hx, before, heq⟩ := (h.rests hs).resolve_right fun hended => by
      rw [hended.1] at hm
      cases hm
    obtain rfl : m = x := Option.some.inj (hm.symm.trans hx)
    exact ⟨(hlodged.current m hm).1, before, heq.trans (items_eq_cursorRange ..)⟩
  · intro hended
    have houter : w.outer = [] := ((h.rests hs).resolve_left fun ⟨m, hm, _⟩ => by
      rw [hended] at hm
      cases hm).2
    have hlast := hrooted.last
    rw [path, houter] at hlast
    exact ⟨houter, (Option.some.inj hlast).trans hrooted.root.symm⟩
  · refine restart_eq_of_start ?_
    rw [hrooted.root, hrooted.version]
    exact hstart

end Walk

/-- An `a`, and then any number of `b`. -/
def standingSample : Components :=
  ((Components.withElements .v11 [("a", .once), ("b", .once)]).withGroup .choice .zeroOrMore
    [.element ⟨1⟩]).withGroup .sequence .once [.element ⟨0⟩, .group ⟨0⟩]

theorem standing_of_reached_sample : standingSample.schema.Built ∧
    ∃ w : Walk, w.Reached standingSample.schema ⟨1⟩ .v11 ∧ w.path = [⟨0⟩, ⟨1⟩] ∧
      w.current = some (.element ⟨1⟩) ∧ w.Standing standingSample.schema ∧
      ∃ w₀, Walk.start standingSample.schema ⟨1⟩ .v11 = .ok w₀ ∧
        w.restart standingSample.schema = (.ok (), w₀) := by
  have hs : standingSample.schema.Built :=
    (((Components.assembled_withElements ..).withGroup ..).withGroup ..).built rfl
  have hstart : Walk.start standingSample.schema ⟨1⟩ .v11 = .ok ⟨⟨1⟩, .v11,
      ⟨⟨1⟩, [.group ⟨0⟩], false⟩, [], Tally.zero, Tally.zero, some (.element ⟨0⟩)⟩ := by
    decide +kernel
  have hadvance : Walk.advance standingSample.schema ⟨⟨1⟩, .v11, ⟨⟨1⟩, [.group ⟨0⟩], false⟩, [],
      Tally.zero, Tally.zero, some (.element ⟨0⟩)⟩ true = (.ok [], ⟨⟨1⟩, .v11, ⟨⟨0⟩, [], false⟩,
        [⟨⟨1⟩, [], true⟩], ⟨[(.element ⟨0⟩, 1), (.group ⟨0⟩, 0)]⟩, ⟨[(.group ⟨0⟩, 0)]⟩,
        some (.element ⟨1⟩)⟩) := by
    decide +kernel
  have hreached := (Walk.Reached.start hstart).advance hadvance
  obtain ⟨hstanding, -, -, hrestart⟩ := Walk.standing_of_reached hs hreached
  exact ⟨hs, _, hreached, rfl, rfl, hstanding, hrestart⟩

end Conform
