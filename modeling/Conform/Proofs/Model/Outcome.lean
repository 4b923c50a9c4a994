import Conform.Decode.Document
import Conform.Proofs.Model.Budget
import Conform.Proofs.Model.Placement
/-!
# What comes of an attribution

An attribution speaks of particles that are there: children are attributed to leaves of the root
group, and so are the particles of issues and what is expected. It fails at the bound on the depth of
models, and in version 1.0 nowhere else.
-/

namespace Conform

namespace Walk

variable {s : Schema} {w w' : Walk}

/-- All groups of a walk are there. -/
structure Grounded (s : Schema) (w : Walk) : Prop where
  lodged : w.Lodged s
  inside : w.Inside s
  root : .group w.root ∈ s.particles
  groups : ∀ f ∈ w.here :: w.outer, .group f.group ∈ s.particles

theorem Grounded.of_hop (hs : s.Built) (hop : Hop s w w') (h : w.Grounded s) : w'.Grounded s := by
  have hlodged := h.lodged.of_hop hs hop
  refine ⟨hlodged, h.inside.of_hop hs hop, root_of_hop hop ▸ h.root, ?_⟩
  have hgroups := List.forall_mem_cons.1 h.groups
  cases hop with
  | recount | halt => exact h.groups
  | mark | rewind | skip | stand => exact List.forall_mem_cons.2 hgroups
  | enter _ henter =>
      have haround := hlodged.around
      unfold enter at henter
      split at henter <;> cases henter
      cases haround with
      | nested hmem _ =>
          exact List.forall_mem_cons.2 ⟨Components.mem_particles (hs.forest.isThere hmem),
            List.forall_mem_cons.2 hgroups⟩
  | leave hleave =>
      unfold leave? at hleave
      split at hleave
      · cases hleave
      rename_i houter
      cases hleave
      rw [houter] at hgroups
      exact hgroups.2

theorem Grounded.of_hops (hs : s.Built) (hops : Hops s w w') (h : w.Grounded s) : w'.Grounded s :=
  hops.keep (fun hop => Grounded.of_hop hs hop) h

theorem grounded_clear (hs : s.Built) (h : .group w.root ∈ s.particles) :
    (w.clear s).Grounded s where
  lodged := lodged_clear w
  inside := by
    have hitems : ∀ m ∈ items s w.version w.root, s.leavesIn m ⊆ s.leaves w.root :=
      fun m hm => (leavesIn_subset_of_items hs hm).2
    refine ⟨fun f hf => ?_, fun f hf => ?_, nofun⟩ <;>
      rw [List.mem_singleton.1 hf] <;> exact hitems
  root := h
  groups f hf := by
    rw [List.mem_singleton.1 hf]
    exact h

theorem grounded_start (hs : s.Built) {root : GroupId} {v : Version}
    (hroot : .group root ∈ s.particles) (h : Walk.start s root v = .ok w) : w.Grounded s :=
  .of_hops hs (hops_start h)
    (grounded_clear (w := ⟨root, v, default, [], Tally.zero, Tally.zero, none⟩) hs hroot)

/-- Only particles that are there are expected. -/
theorem mem_particles_of_expected (hs : s.Built) (w : Walk) {m : Member} (h : m ∈ w.expected s) :
    m ∈ s.particles := by
  unfold expected at h
  obtain ⟨x, hx, hm⟩ := List.mem_flatMap.1 h
  have hthere := Components.mem_particles (hs.forest.isThere (List.mem_of_mem_filter hx))
  cases x with
  | element | wildcard => exact List.mem_singleton.1 hm ▸ hthere
  | group g =>
      dsimp only at hm
      split at hm
      · cases hm
      · exact hs.mem_particles_of_leaf hm

end Walk

/-- A violation of a particle that is there, by particles that are there. -/
structure Violation.IsKnown (s : Schema) (v : Violation) : Prop where
  particle : v.particle ∈ s.particles
  expected : ∀ m ∈ v.expected, m ∈ s.particles

theorem Walk.Grounded.violation {s : Schema} (hs : s.Built) {w : Walk} (h : w.Grounded s)
    {x : Walk} (hgroup : x.here.group = w.here.group) (y : Walk) (count : Nat) :
    (⟨x.hereMember, count, y.expected s⟩ : Violation).IsKnown s :=
  ⟨by rw [Walk.hereMember, hgroup]; exact h.groups _ List.mem_cons_self,
    fun _ hm => Walk.mem_particles_of_expected hs y hm⟩

namespace Passage

open Walk

variable {s : Schema} {p : Passage}

/-- All violations of a passage are known. -/
def IsKnown (s : Schema) (p : Passage) : Prop := ∀ v ∈ p.violations, v.IsKnown s

theorem IsKnown.report (h : p.IsKnown s) {v : Violation} (hv : v.IsKnown s) :
    (p.report v).IsKnown s := by
  intro x hx
  rcases List.mem_append.1 hx with hx | hx
  · exact h x hx
  · exact List.mem_singleton.1 hx ▸ hv

theorem IsKnown.afterClose (h : p.IsKnown s) (r : Option Bool × Walk) :
    (p.afterClose r).passage.IsKnown s := by
  unfold Passage.afterClose
  split <;> exact h

theorem IsKnown.leaveUnmatched (hs : s.Built) (hw : p.walk.Grounded s) (h : p.IsKnown s) :
    (p.leaveUnmatched s).passage.IsKnown s := by
  unfold Passage.leaveUnmatched
  dsimp only
  generalize (if ((s.group p.walk.here.group).compositor = .all && p.walk.isSatisfied s) = true
    then { p.walk with counts := p.walk.counts.set p.walk.hereMember 1 } else p.walk : Walk) = w
  split
  · exact h
  · split
    · exact h.report (hw.violation hs (x := p.walk) rfl w _)
    · exact h

theorem IsKnown.leaveAll (hs : s.Built) (hw : p.walk.Grounded s) (h : p.IsKnown s) :
    (p.leaveAll s).passage.IsKnown s := by
  have hreport : (p.report (p.walk.violation s p.walk.hereMember
      (p.walk.count p.walk.hereMember))).IsKnown s :=
    h.report (hw.violation hs (x := p.walk) rfl p.walk _)
  unfold Passage.leaveAll
  dsimp only
  split
  · split
    · split
      · exact hreport
      · exact h
    · split
      · exact hreport
      · exact h
  · split
    · exact h
    · split
      · exact h
      · exact IsKnown.afterClose (p := { p with walk := _ }) h _

theorem IsKnown.step (hs : s.Built) (hw : p.walk.Grounded s) (h : p.IsKnown s) :
    (p.step s).passage.IsKnown s := by
  unfold Passage.step
  split
  · exact h.afterClose _
  cases hnext : p.walk.nextItem s with
  | mk item w =>
    obtain ⟨rest, hsuffix, rfl⟩ := nextItem_suffix hnext
    have hplace : ∀ m, (place s ⟨{ p.walk with here := { p.walk.here with rest } }, some m,
        p.violations⟩ m).passage.IsKnown s := by
      intro m
      unfold place
      dsimp only
      split <;> exact h
    cases item with
    | none =>
        have hskip : Walk.Grounded s { p.walk with here := { p.walk.here with rest } } :=
          hw.of_hop hs (.skip hsuffix)
        have hknown : IsKnown s ⟨{ p.walk with here := { p.walk.here with rest } }, none,
          p.violations⟩ := h
        dsimp only
        unfold leaveEnd
        split
        · exact hknown.leaveUnmatched hs hskip
        · split
          · exact hknown.leaveAll hs hskip
          · exact h
    | some m =>
        cases m with
        | element e => exact hplace _
        | wildcard x => exact hplace _
        | group g =>
            dsimp only
            unfold enterGroup
            split <;> exact h

theorem IsKnown.run (hs : s.Built) : ∀ (fuel : Nat) {p : Passage}, p.walk.Grounded s →
    p.IsKnown s → (p.run s fuel).passage.IsKnown s
  | 0, _, _, h => h
  | fuel + 1, p, hw, h => by
    have hstep := h.step hs hw
    have hops := hops_step (s := s) p
    unfold Passage.run
    generalize p.step s = move at hstep hops
    cases move with
    | again p' => exact IsKnown.run hs fuel (hw.of_hops hs hops) hstep
    | placed | ended | failed => exact hstep

end Passage

namespace Walk

variable {s : Schema} {w w' : Walk} {violations : List Violation}

theorem known_finish (hs : s.Built) {p : Passage} (hw : p.walk.Grounded s) (h : p.IsKnown s) :
    ∀ v ∈ (finish s p).1, v.IsKnown s := by
  have hreport : ∀ v ∈ p.violations ++ [violation s { p.walk with current := none }
      p.walk.hereMember (p.walk.count p.walk.hereMember)], v.IsKnown s :=
    h.report (hw.violation hs (x := p.walk) rfl _ _)
  unfold finish
  dsimp only
  split
  · split
    · exact hreport
    · exact h
  · split
    · exact hreport
    · exact h

theorem known_moveOn (hs : s.Built) (hw : w.Grounded s) {m : Member} (hm : m ∈ s.particles)
    (h : w.moveOn s m = (.ok violations, w')) : ∀ v ∈ violations, v.IsKnown s := by
  have hclosed := hw.of_hops hs (hops_closeLeaf (s := s) w m)
  unfold moveOn at h
  dsimp only at h
  split at h
  · rename_i closed hclose
    rw [hclose] at hclosed
    cases h
    exact known_finish hs hclosed nofun
  · rename_i missing closed hclose
    rw [hclose] at hclosed
    have hfirst : Passage.IsKnown s
        ⟨closed, none, if missing then [⟨m, w.count m, [m]⟩] else []⟩ := by
      intro v hv
      dsimp only at hv
      split at hv
      · rw [List.mem_singleton.1 hv]
        exact ⟨hm, fun x hx => List.mem_singleton.1 hx ▸ hm⟩
      · cases hv
    have hrun := hfirst.run hs s.stepBudget hclosed
    have hops := Passage.hops_run (s := s) s.stepBudget
      ⟨closed, none, if missing then [⟨m, w.count m, [m]⟩] else []⟩
    split at h
    · rename_i hmove
      rw [hmove] at hrun
      cases h
      exact hrun
    · rename_i hmove
      rw [hmove] at hrun hops
      cases h
      exact known_finish hs (hclosed.of_hops hs hops) hrun
    · cases h
    · cases h

theorem known_advance (hs : s.Built) (hw : w.Grounded s) {matched : Bool}
    (h : w.advance s matched = (.ok violations, w')) : ∀ v ∈ violations, v.IsKnown s := by
  unfold advance at h
  cases hcurrent : w.current with
  | none =>
      rw [hcurrent] at h
      cases h
  | some m =>
      have hm := (hw.lodged.current m hcurrent).2
      have htaken := hw.of_hops hs (hops_take (s := s) w m)
      simp only [hcurrent] at h
      split at h
      · split at h
        · cases h
          exact nofun
        · split at h
          · exact known_moveOn hs (htaken.of_hop hs (.rewind _)) hm h
          · exact known_moveOn hs htaken hm h
      · exact known_moveOn hs hw hm h

theorem known_stopFrom (hs : s.Built) {all : List Violation} : ∀ {fuel : Nat}
    {violations : List Violation} {w : Walk}, w.Grounded s → (∀ v ∈ violations, v.IsKnown s) →
      w.stopFrom s fuel violations = (.ok all, w') → ∀ v ∈ all, v.IsKnown s
  | 0, _, w, _, hknown, h => by
    unfold stopFrom at h
    split at h <;> cases h
    exact hknown
  | fuel + 1, violations, w, hw, hknown, h => by
    have hops := hops_advance (s := s) w false
    unfold stopFrom at h
    split at h
    · cases h
      exact hknown
    · split at h
      · rename_i more next heq
        rw [heq] at hops
        have hmore := known_advance hs hw heq
        refine known_stopFrom hs (hw.of_hops hs hops) (fun v hv => ?_) h
        exact (List.mem_append.1 hv).elim (hknown v) (hmore v)
      · cases h

end Walk

/-- An issue of a particle that is there, with particles that are there in its place. -/
structure Issue.IsKnown (s : Schema) (i : Issue) : Prop where
  particle : i.particle ∈ s.particles
  expected : ∀ ms ∈ i.expected, ∀ m ∈ ms, m ∈ s.particles

theorem Violation.IsKnown.issue {s : Schema} {v : Violation} (h : v.IsKnown s) (index : Nat) :
    (Issue.ofViolation index v).IsKnown s :=
  ⟨h.particle, fun _ hms => Option.some.inj hms ▸ h.expected⟩

namespace Matching

variable {s : Schema}

/-- A matching whose walk and issues are about what is there. -/
structure IsKnown (s : Schema) (m : Matching) : Prop where
  walk : m.walk.Grounded s
  issues : ∀ i ∈ m.issues, i.IsKnown s

theorem IsKnown.report {m : Matching} (h : m.IsKnown s) {issues : List Issue}
    (hissues : ∀ i ∈ issues, i.IsKnown s) : (m.report issues).IsKnown s :=
  ⟨h.walk, fun i hi => (List.mem_append.1 hi).elim (h.issues i) (hissues i)⟩

theorem IsKnown.breakAt {m : Matching} (h : m.IsKnown s) {issue : Issue}
    (hissue : issue.IsKnown s) : (m.breakAt issue).IsKnown s :=
  have hreport : (m.report [issue]).IsKnown s :=
    h.report fun _ hi => List.mem_singleton.1 hi ▸ hissue
  ⟨hreport.walk, hreport.issues⟩

theorem leafFor?_mem {w : Walk} {name : QName} {leaf : Member} (h : w.leafFor? s name = some leaf) :
    leaf ∈ s.leaves w.root :=
  List.mem_of_find?_eq_some h

/-- A child is attributed to a leaf of the root group, if to any. -/
theorem attributeFrom_known (hs : s.Built) {index : Nat} {name : QName} {leaf : Option Member}
    {m' : Matching} : ∀ {fuel : Nat} {m : Matching}, m.IsKnown s →
      attributeFrom s index name fuel m = .ok (leaf, m') →
        (∀ l ∈ leaf, l ∈ s.leaves m.walk.root) ∧ m'.IsKnown s ∧ m'.walk.root = m.walk.root
  | 0, _, _, h => by cases h
  | fuel + 1, m, hm, h => by
    unfold attributeFrom at h
    split at h
    · unfold attributeByName at h
      cases hfound : m.walk.leafFor? s name with
      | none =>
          simp only [hfound] at h
          cases h
          exact ⟨nofun, hm.breakAt ⟨hm.walk.root, nofun⟩, rfl⟩
      | some l =>
          have hleaf := leafFor?_mem hfound
          have hleaves : ∀ x ∈ some l, x ∈ s.leaves m.walk.root := by
            rintro x ⟨rfl⟩
            exact hleaf
          simp only [hfound] at h
          split at h <;> cases h
          · exact ⟨hleaves, hm, rfl⟩
          · refine ⟨hleaves, hm.breakAt ⟨hs.mem_particles_of_leaf hleaf, ?_⟩, rfl⟩
            rintro ms ⟨rfl⟩
            exact nofun
    · rename_i l hcurrent
      split at h
      · have hops := Walk.hops_advance (s := s) m.walk true
        split at h
        · rename_i heq
          rw [heq] at hops
          cases h
          have hknown := Walk.known_advance hs hm.walk heq
          have hnext : IsKnown s { m with walk := _ } := ⟨hm.walk.of_hops hs hops, hm.issues⟩
          refine ⟨?_, hnext.report fun i hi => ?_, Walk.root_of_hops hops⟩
          · rintro x ⟨rfl⟩
            exact hm.walk.inside.current l hcurrent
          · obtain ⟨v, hv, rfl⟩ := List.mem_map.1 hi
            exact (hknown v hv).issue index
        · cases h
      · have hops := Walk.hops_advance (s := s) m.walk false
        split at h
        · rename_i heq
          rw [heq] at hops
          obtain ⟨hleaf, hknown, hroot⟩ := attributeFrom_known hs
            (m := { m with walk := _ }) ⟨hm.walk.of_hops hs hops, hm.issues⟩ h
          rw [← Walk.root_of_hops hops]
          exact ⟨hleaf, hknown, hroot⟩
        · rename_i v _ next heq
          rw [heq] at hops
          cases h
          have hroot : next.root = m.walk.root := Walk.root_of_hops hops
          have hknown := Walk.known_advance hs hm.walk heq
          have hnext : IsKnown s { m with walk := next.clear s } :=
            ⟨Walk.grounded_clear hs (hroot ▸ hm.walk.root), hm.issues⟩
          refine ⟨fun l hl => hroot ▸ leafFor?_mem hl, ?_, hroot⟩
          exact hnext.breakAt ((hknown v List.mem_cons_self).issue index)
        · cases h

theorem children_known (hs : s.Built) : ∀ (names : List QName) (index : Nat) {m : Matching},
    m.IsKnown s →
      (∀ leaf ∈ (children s index m names).leaves, ∀ l ∈ leaf, l ∈ s.leaves m.walk.root) ∧
      ∀ issues, (children s index m names).issues = .ok issues → ∀ i ∈ issues, i.IsKnown s
  | [], index, m, hm => by
    refine ⟨List.forall_mem_nil _, fun issues h => ?_⟩
    simp only [children, finish, bind, Except.bind, pure, Except.pure] at h
    cases hstop : m.walk.stop s with
    | mk stopped w =>
      rw [hstop] at h
      cases stopped with
      | error f => cases h
      | ok violations =>
          cases h
          have hnone : ∀ v ∈ ([] : List Violation), v.IsKnown s := List.forall_mem_nil _
          have hknown := Walk.known_stopFrom hs hm.walk hnone hstop
          intro i hi
          rcases List.mem_append.1 hi with hi | hi
          · exact hm.issues i hi
          · obtain ⟨v, hv, rfl⟩ := List.mem_map.1 hi
            exact (hknown v hv).issue index
  | name :: rest, index, m, hm => by
    simp only [children]
    cases hchild : m.child s index name with
    | error f => exact ⟨List.forall_mem_nil _, fun issues h => by cases h⟩
    | ok r =>
        obtain ⟨leaf, m'⟩ := r
        obtain ⟨hleaf, hknown, hroot⟩ := attributeFrom_known hs hm hchild
        obtain ⟨hleaves, hissues⟩ := children_known hs rest (index + 1) hknown
        rw [hroot] at hleaves
        exact ⟨List.forall_mem_cons.2 ⟨hleaf, hleaves⟩, hissues⟩

/-! ## Failures -/

end Matching

/-- The bound on the depth of models is exceeded, or a model of version 1.1 goes on for ever. -/
def Failure.EndsAttribution (s : Schema) (f : Failure) : Prop :=
  f.ExceedsDepth s ∨ s.version = .v11 ∧ f = .endlessModel

theorem Failure.EndsWalk.endsAttribution {s : Schema} {f : Failure} (h : f.EndsWalk s)
    (hv : s.version = .v11) : f.EndsAttribution s := by
  cases h with
  | depth group hlt => exact .inl ⟨_, group, rfl, hlt⟩
  | budget => exact .inr ⟨hv, rfl⟩

namespace Walk

variable {s : Schema} {w w' : Walk}

theorem advance_fails (hs : s.Built) (hw : w.Lodged s) {m : Member} (hcurrent : w.current = some m)
    {matched : Bool} {f : Failure} (h : w.advance s matched = (.error f, w')) :
    f.EndsAttribution s := by
  cases hv : s.version with
  | v10 =>
      rcases advance_ends hs hv hw hcurrent matched with ⟨violations, hok⟩ | ⟨f', herror, hdepth⟩
      · rw [h] at hok
        cases hok
      · rw [h] at herror
        cases herror
        exact .inl hdepth
  | v11 => exact (endsWalk_of_advance hcurrent h).endsAttribution hv

theorem stop_fails (hs : s.Built) (hw : w.Lodged s) {f : Failure}
    (h : w.stop s = (.error f, w')) : f.EndsAttribution s := by
  cases hv : s.version with
  | v10 =>
      rcases stop_ends hs hv hw with ⟨⟨violations, hok⟩, -⟩ | ⟨f', herror, hdepth⟩
      · rw [h] at hok
        cases hok
      · rw [h] at herror
        cases herror
        exact .inl hdepth
  | v11 => exact (endsWalk_of_stopFrom h).endsAttribution hv

theorem start_fails (hs : s.Built) {root : GroupId} {v : Version} {f : Failure}
    (h : Walk.start s root v = .error f) : f.ExceedsDepth s := by
  unfold Walk.start at h
  dsimp only at h
  split at h
  · cases h
  · rename_i hrestart
    cases h
    exact restart_ends hs _ f (congrArg Prod.fst hrestart)

end Walk

namespace Matching

variable {s : Schema}

/-- In version 1.0 there are fewer leaves to pass than a child is given. -/
theorem attributeFrom_ends (hs : s.Built) (hv : s.version = .v10) {index : Nat} {name : QName}
    {f : Failure} : ∀ {fuel : Nat} {m : Matching} {warm : Bool}, m.walk.Lodged s →
      (warm = true ∨ m.walk.IsFresh s) → m.walk.toGo s warm + 1 < fuel →
        attributeFrom s index name fuel m = .error f → f.EndsAttribution s
  | 0, _, _, _, _, hfuel, _ => absurd hfuel (Nat.not_lt_zero _)
  | fuel + 1, m, warm, hw, hfresh, hfuel, h => by
    unfold attributeFrom at h
    split at h
    · cases h
    rename_i l hcurrent
    split at h
    · split at h
      · cases h
      · rename_i heq
        cases h
        exact Walk.advance_fails hs hw hcurrent heq
    · have hops := Walk.hops_advance (s := s) m.walk false
      split at h
      · rename_i next heq
        rw [heq] at hops
        have hlodged : next.Lodged s := hw.of_hops hs hops
        obtain ⟨hleaf, hl⟩ := hw.current l hcurrent
        have hmoved : Walk.MovesOn s (m.walk.toGo s warm) (m.walk.moveOn s l) := by
          refine Walk.movesOn_moveOn hs hv hw hleaf hl
            (hfresh.imp_right fun hfresh hseq hcount => ?_)
          obtain ⟨l', hl', hzero⟩ := hfresh
          rw [hcurrent] at hl'
          rw [← Option.some.inj hl'] at hzero
          have hcount0 := hzero hseq
          omega
        rw [← Walk.advance_pass hcurrent, heq] at hmoved
        cases hmoved with
        | placed hlt hnext =>
            have hknown : false = true ∨ next.IsFresh s := .inr hnext
            have hless : next.toGo s false + 1 < fuel := by omega
            exact attributeFrom_ends hs hv (m := { m with walk := next }) hlodged hknown hless h
        | ended hended =>
            -- a walk that is over takes the child by its name
            cases fuel with
            | zero => omega
            | succ fuel =>
                unfold attributeFrom at h
                simp only [hended] at h
                cases h
      · cases h
      · rename_i heq
        cases h
        exact Walk.advance_fails hs hw hcurrent heq

theorem attributeFrom_endsWalk {index : Nat} {name : QName} {f : Failure} : ∀ {fuel : Nat}
    {m : Matching}, attributeFrom s index name fuel m = .error f → f.EndsWalk s
  | 0, _, h => by
    cases h
    exact .budget
  | fuel + 1, m, h => by
    unfold attributeFrom at h
    split at h
    · cases h
    rename_i l hcurrent
    split at h
    · split at h
      · cases h
      · rename_i heq
        cases h
        exact Walk.endsWalk_of_advance hcurrent heq
    · split at h
      · exact attributeFrom_endsWalk h
      · cases h
      · rename_i heq
        cases h
        exact Walk.endsWalk_of_advance hcurrent heq

theorem child_fails (hs : s.Built) {m : Matching} (hw : m.walk.Lodged s) {index : Nat}
    {name : QName} {f : Failure} (h : m.child s index name = .error f) : f.EndsAttribution s := by
  cases hv : s.version with
  | v10 =>
      exact attributeFrom_ends hs hv hw (.inl rfl) (Nat.succ_lt_succ (hw.toGo_lt hs true)) h
  | v11 => exact (attributeFrom_endsWalk h).endsAttribution hv

theorem children_fails (hs : s.Built) {f : Failure} : ∀ (names : List QName) (index : Nat)
    {m : Matching}, m.IsKnown s → (children s index m names).issues = .error f →
      f.EndsAttribution s
  | [], index, m, hm, h => by
    simp only [children, finish, bind, Except.bind, pure, Except.pure] at h
    cases hstop : m.walk.stop s with
    | mk stopped w =>
      rw [hstop] at h
      cases stopped with
      | ok => cases h
      | error f' =>
          cases h
          exact Walk.stop_fails hs hm.walk.lodged hstop
  | name :: rest, index, m, hm, h => by
    simp only [children] at h
    cases hchild : m.child s index name with
    | error f' =>
        rw [hchild] at h
        cases h
        exact child_fails hs hm.walk.lodged hchild
    | ok r =>
        obtain ⟨leaf, m'⟩ := r
        rw [hchild] at h
        exact children_fails hs rest (index + 1) (attributeFrom_known hs hm hchild).2.1 h

end Matching

/-! ## Attributions -/

/-- What comes of an attribution: leaves of the group, and issues or a failure. -/
structure Attribution.IsKnown (s : Schema) (root : GroupId) (a : Attribution) : Prop where
  leaves : ∀ leaf ∈ a.leaves, ∀ l ∈ leaf, l ∈ s.leaves root
  issues : ∀ issues, a.issues = .ok issues → ∀ i ∈ issues, i.IsKnown s
  failure : ∀ f, a.issues = .error f → f.EndsAttribution s

namespace Schema

variable {s : Schema} {root : GroupId} {names : List QName}

theorem attribution_known (hs : s.Built) (hroot : .group root ∈ s.particles) {a : Attribution}
    (h : s.attribution root names = .ok a) : a.IsKnown s root := by
  simp only [attribution, Matching.start, bind, Except.bind, pure, Except.pure] at h
  split at h
  · cases h
  rename_i m hm
  split at hm
  · cases hm
  rename_i w hstart
  cases hm
  cases h
  have hknown : Matching.IsKnown s ⟨w, false, []⟩ :=
    ⟨Walk.grounded_start hs hroot hstart, List.forall_mem_nil _⟩
  obtain ⟨hleaves, hissues⟩ := Matching.children_known hs names 0 hknown
  exact ⟨Walk.root_start hstart ▸ hleaves, hissues, fun f =>
    Matching.children_fails hs names 0 hknown⟩

theorem looseAttribution_known {a : Attribution} (h : s.looseAttribution root names = .ok a) :
    a.IsKnown s root := by
  simp only [looseAttribution, bind, Except.bind, pure, Except.pure] at h
  split at h
  · cases h
  rename_i w hstart
  cases h
  refine ⟨fun leaf hleaf l hl => ?_, fun issues hissues => ?_, fun f hf => by cases hf⟩
  · obtain ⟨name, -, rfl⟩ := List.mem_map.1 hleaf
    exact Walk.root_start hstart ▸ Matching.leafFor?_mem hl
  · cases hissues
    exact List.forall_mem_nil _

theorem attributionIn_known (hs : s.Built) (hroot : .group root ∈ s.particles) {o : Options}
    {a : Attribution} (h : s.attributionIn o root names = .ok a) : a.IsKnown s root := by
  unfold attributionIn at h
  split at h
  · exact looseAttribution_known h
  · exact attribution_known hs hroot h

/-- No child is attributed if the first leaf cannot be found. -/
theorem attributionIn_fails (hs : s.Built) {o : Options} {f : Failure}
    (h : s.attributionIn o root names = .error f) : f.ExceedsDepth s := by
  unfold attributionIn at h
  split at h
  · simp only [looseAttribution, bind, Except.bind, pure, Except.pure] at h
    split at h
    · rename_i hstart
      cases h
      exact Walk.start_fails hs hstart
    · cases h
  · simp only [attribution, Matching.start, bind, Except.bind, pure, Except.pure] at h
    split at h
    · rename_i hm
      split at hm
      · rename_i hstart
        cases hm
        cases h
        exact Walk.start_fails hs hstart
      · cases hm
    · cases h

end Schema

end Conform
