import Conform.Proofs.Model.Placement
import Conform.Proofs.Model.Standing
/-!
# Particles that must not occur

A walk does not enter a group that must not occur, and passes over the members of an `all` group
that have reached their maximum. So it stands on no leaf below such a group, and on a leaf that must
not occur itself only as a member of a sequence or of a choice, where members are not passed over.
-/

namespace Conform

/-! ## Groups around a leaf -/

namespace Components

variable {c : Components} {root g : GroupId} {m : Member}

/-- What a group contains is the group itself, one of its members or inside one of them. -/
theorem Contains.first (h : c.Contains root m) : m = .group root ∨
    (m.isGroup = false ∧ m ∈ (c.group root).members) ∨
      ∃ g, .group g ∈ (c.group root).members ∧ c.Contains g m := by
  induction h with
  | root => exact .inl rfl
  | @member g m hg hm ih =>
      refine .inr ?_
      rcases ih with heq | ⟨hleaf, -⟩ | ⟨sub, hsub, hin⟩
      · obtain rfl := Member.group.inj heq
        cases m with
        | group sub => exact .inr ⟨sub, hm, .root⟩
        | element e => exact .inl ⟨rfl, hm⟩
        | wildcard x => exact .inl ⟨rfl, hm⟩
      · cases hleaf
      · exact .inr ⟨sub, hsub, hin.member hm⟩

end Components

namespace Schema

open Components

variable {s : Schema} {root g : GroupId} {m : Member}

theorem Built.contains_of_mem_leaves (hs : s.Built) (hm : m ∈ s.leaves root) :
    s.Contains root m :=
  hs.leaves_induction (fun hmember _ => .member .root hmember)
    (fun hsub _ _ ih => Contains.trans (.member .root hsub) ih) hm

/-- The nested groups around a leaf of a group may all occur. -/
theorem Built.max_ne_zero_of_mem_leaves (hs : s.Built) (hm : m ∈ s.leaves root) (hne : g ≠ root)
    (hg : s.Contains root (.group g)) (hgm : s.Contains g m) :
    (s.group g).occurs.max ≠ some 0 := by
  -- the group is in a member of the root
  have hbelow : ∀ {root}, g ≠ root → s.Contains root (.group g) →
      ∃ a, .group a ∈ (s.group root).members ∧ s.Contains a (.group g) := by
    intro root hne hg
    rcases hg.first with heq | ⟨hleaf, -⟩ | hin
    · exact absurd (Member.group.inj heq) hne
    · cases hleaf
    · exact hin
  refine hs.leaves_induction (motive := fun root => g ≠ root → s.Contains root (.group g) →
    (s.group g).occurs.max ≠ some 0) ?_ ?_ hm hne hg
  · intro root hmember hleaf hne hg
    obtain ⟨a, ha, hag⟩ := hbelow hne hg
    exact absurd (hag.trans hgm) (Contains.not_leaf hs.forest ha hmember hleaf)
  · intro root sub hsub hmax hleaf ih hne hg
    obtain ⟨a, ha, hag⟩ := hbelow hne hg
    have hsame : a = sub := by
      by_contra hother
      exact Contains.disjoint hs.forest ha hsub hother (hag.trans hgm)
        (hs.contains_of_mem_leaves hleaf)
    subst hsame
    by_cases hself : g = a
    · exact hself ▸ hmax
    · exact ih hself hag

end Schema

/-! ## Standing on a leaf -/

namespace Walk

/-- In an `all` group the walk stands on no leaf that must not occur. -/
def Admits (s : Schema) (w : Walk) : Prop :=
  ∀ m ∈ w.current, (s.group w.here.group).compositor = .all → (s.occurs m).max ≠ some 0

variable {s : Schema} {w w' : Walk} {m : Member}

theorem admits_of_current (h : w.current = none) : w.Admits s := by
  intro m hm
  rw [h] at hm
  cases hm

/-- What is not passed over in an `all` group may occur. -/
theorem max_ne_zero_of_nextItem (h : w.nextItem s = (some m, w'))
    (hall : (s.group w.here.group).compositor = .all) : (s.occurs m).max ≠ some 0 := by
  have hpassed : w.isPassed s m = false := by
    unfold nextItem at h
    split at h
    · cases h
    · rename_i x rest hrest
      cases h
      have hhead := List.head_dropWhile_not (p := w.isPassed s) (l := w.here.rest) (by simp [hrest])
      simpa [hrest] using hhead
  intro hmax
  simp [isPassed, hall, Occurs.isOver, hmax] at hpassed

/-- The next member is a leaf on which the walk may stand. -/
theorem admits_of_nextItem (h : w.nextItem s = (some m, w')) {next : Walk}
    (hcurrent : next.current = some m) (hgroup : next.here.group = w'.here.group) :
    next.Admits s := by
  obtain ⟨rest, -, rfl⟩ := nextItem_suffix h
  intro x hx hall
  obtain rfl := Option.some.inj (hcurrent.symm.trans hx)
  rw [hgroup] at hall
  exact max_ne_zero_of_nextItem h hall

end Walk

/-- Where a step places the walk, it stands on no leaf that must not occur. -/
def Move.Admits (s : Schema) : Move → Prop
  | .placed p => p.walk.Admits s
  | .again _ | .ended _ | .failed .. => True

namespace Passage

open Walk

variable {s : Schema}

theorem admits_afterClose (p : Passage) (r : Option Bool × Walk) : (p.afterClose r).Admits s := by
  unfold afterClose
  split <;> trivial

theorem admits_leaveUnmatched (p : Passage) : (p.leaveUnmatched s).Admits s := by
  unfold leaveUnmatched
  dsimp only
  generalize (if ((s.group p.walk.here.group).compositor = .all && p.walk.isSatisfied s) = true
    then { p.walk with counts := p.walk.counts.set p.walk.hereMember 1 } else p.walk : Walk) = w
  split
  · trivial
  · split <;> trivial

theorem admits_leaveAll (p : Passage) : (p.leaveAll s).Admits s := by
  unfold leaveAll
  dsimp only
  split
  · split <;> trivial
  · split
    · trivial
    · split
      · trivial
      · exact admits_afterClose ..

theorem admits_leaveEnd (p : Passage) : (p.leaveEnd s).Admits s := by
  unfold leaveEnd
  split
  · exact admits_leaveUnmatched p
  · split
    · exact admits_leaveAll p
    · trivial

theorem admits_step (p : Passage) : (p.step s).Admits s := by
  unfold step
  split
  · exact admits_afterClose ..
  · cases hnext : p.walk.nextItem s with
    | mk item w =>
      have hplace : ∀ m, item = some m →
          (place s { p with walk := w, last := item } m).Admits s := by
        rintro m rfl
        unfold place
        dsimp only
        split <;> exact admits_of_nextItem hnext rfl rfl
      cases item with
      | none => exact admits_leaveEnd _
      | some m =>
          cases m with
          | element e => exact hplace _ rfl
          | wildcard x => exact hplace _ rfl
          | group g =>
              dsimp only
              unfold enterGroup
              split <;> trivial

theorem admits_run : ∀ (fuel : Nat) (p : Passage), (run s fuel p).Admits s
  | 0, _ => trivial
  | fuel + 1, p => by
    have hstep := admits_step (s := s) p
    unfold run
    generalize p.step s = move at hstep
    cases move with
    | again p' => exact admits_run fuel p'
    | placed | ended | failed => exact hstep

end Passage

namespace Walk

variable {s : Schema} {root : GroupId} {v : Version} {w w' : Walk} {m : Member}

theorem admits_moveOn {violations : List Violation} (h : w.moveOn s m = (.ok violations, w')) :
    w'.Admits s := by
  unfold moveOn at h
  dsimp only at h
  split at h
  · cases h
    exact admits_of_current (current_finish _)
  · split at h
    · rename_i missing closed _ _ p hmove
      cases h
      have hrun := Passage.admits_run (s := s) s.stepBudget
        ⟨closed, none, if missing then [⟨m, w.count m, [m]⟩] else []⟩
      rwa [hmove] at hrun
    · cases h
      exact admits_of_current (current_finish _)
    · cases h
    · cases h

theorem isKept_admits : IsKept s (Admits s) := by
  intro w w' matched violations hw h
  unfold advance at h
  split at h
  · cases h
  · dsimp only at h
    split at h
    · split at h
      · -- the walk stays on its leaf
        cases h
        exact hw
      · split at h <;> exact admits_moveOn h
    · exact admits_moveOn h

theorem admits_stopFrom {all : List Violation} : ∀ {fuel : Nat} {violations : List Violation}
    {w : Walk}, w.Admits s → w.stopFrom s fuel violations = (.ok all, w') → w'.Admits s
  | 0, _, w, hw, h => by
    unfold stopFrom at h
    split at h <;> cases h
    exact hw
  | fuel + 1, _, w, hw, h => by
    unfold stopFrom at h
    split at h
    · cases h
      exact hw
    · split at h
      · rename_i hadvance
        exact admits_stopFrom (isKept_admits hw hadvance) h
      · cases h

theorem admits_seekFirst : ∀ {fuel : Nat} {w : Walk}, w.current = none →
    w.seekFirst s fuel = (.ok (), w') → w'.Admits s
  | 0, _, _, h => by cases h
  | fuel + 1, w, hcurrent, h => by
    unfold seekFirst at h
    cases hnext : w.nextItem s with
    | mk item next =>
      have hnone : next.current = none := by
        obtain ⟨rest, -, rfl⟩ := nextItem_suffix hnext
        exact hcurrent
      rw [hnext] at h
      cases item with
      | none =>
          dsimp only at h
          split at h
          · cases h
            exact admits_of_current hnone
          · rename_i hleave
            refine admits_seekFirst ?_ h
            unfold leave? at hleave
            split at hleave <;> cases hleave
            exact hnone
      | some m =>
          cases m with
          | element e =>
              cases h
              exact admits_of_nextItem hnext rfl rfl
          | wildcard x =>
              cases h
              exact admits_of_nextItem hnext rfl rfl
          | group g =>
              dsimp only at h
              split at h
              · exact admits_seekFirst hnone h
              · split at h
                · cases h
                · rename_i henter
                  refine admits_seekFirst ?_ h
                  unfold enter at henter
                  split at henter <;> cases henter
                  exact hnone

theorem admits_start (h : Walk.start s root v = .ok w) : w.Admits s := by
  unfold Walk.start restart at h
  dsimp only at h
  split at h
  · rename_i hseek
    cases h
    exact admits_seekFirst rfl hseek
  · cases h

theorem Reached.admits (h : w.Reached s root v) : w.Admits s := by
  induction h with
  | start hstart => exact admits_start hstart
  | advance _ heq ih => exact isKept_admits ih heq
  | stop _ heq ih => exact admits_stopFrom ih heq
  | restart _ heq _ => exact admits_seekFirst rfl heq
  | clear _ _ => exact admits_of_current rfl

theorem isKept_reached : IsKept s (Reached s root v) := fun hw h => hw.advance h

end Walk

namespace Walk

variable {s : Schema} {root : GroupId} {v : Version} {w : Walk}

theorem inside_clear (hs : s.Built) (w : Walk) : (w.clear s).Inside s := by
  refine ⟨fun f hf m hm => ?_, fun f hf m hm => ?_, nofun⟩ <;>
  · obtain rfl := List.mem_singleton.1 hf
    exact (leavesIn_subset_of_items hs hm).2

/-- Whatever operations have led to it, a walk stands on a leaf of its root group. -/
theorem Reached.inside (hs : s.Built) (h : w.Reached s root v) : w.Inside s :=
  (h.keep (fun hops hw => hw.of_hops hs hops) (inside_clear hs)).1

end Walk

/-! ## Leaves that are offered -/

namespace Schema

/-- A leaf on which a walk may stand: it is below no nested group that must not occur, and if it
must not occur itself, it is a member of a sequence or of a choice. -/
structure Offers (s : Schema) (root : GroupId) (m : Member) : Prop where
  groups : ∀ g ≠ root, s.Contains root (.group g) → s.Contains g m →
    (s.group g).occurs.max ≠ some 0
  leaf : (s.occurs m).max = some 0 →
    ∃ g, m ∈ (s.group g).members ∧ (s.group g).compositor ≠ .all

variable {s : Schema} {root : GroupId} {names : List QName} {a : Attribution}

theorem offers_of_reached (hs : s.Built) {v : Version} {w : Walk} (h : w.Reached s root v)
    {m : Member} (hm : w.current = some m) : s.Offers root m where
  groups g hne hg hgm := by
    have hin := (h.inside hs).current m hm
    rw [h.rooted.root] at hin
    exact hs.max_ne_zero_of_mem_leaves hin hne hg hgm
  leaf hmax := by
    have hall : (s.group w.here.group).compositor ≠ .all := fun hall => h.admits m hm hall hmax
    obtain ⟨x, hx, hsuffix⟩ := (h.rests hs).resolve_right fun hended => by
      rw [hended.1] at hm
      cases hm
    obtain rfl := Option.some.inj (hm.symm.trans hx)
    have hitem := hsuffix.subset List.mem_cons_self
    rw [Walk.items_eq_cursorRange, cursorRange] at hitem
    split at hitem
    · cases hitem
    · rw [if_neg fun hboth => hall hboth.1] at hitem
      exact ⟨_, hitem, hall⟩

/-- The children of a content without issues belong to leaves on which walks may stand. -/
theorem offers_of_attribution (hs : s.Built) (h : s.attribution root names = .ok a)
    (hissues : a.issues = .ok []) : ∀ leaf ∈ a.leaves, ∃ m, leaf = some m ∧ s.Offers root m := by
  obtain ⟨start, hstart, hall⟩ := attribution_walks h hissues
  have hleaves := hall Walk.isKept_reached (.start hstart)
  have hoffers : List.Forall₂
      (fun leaf _ => (∃ m, leaf = some m ∧ s.Offers root m) ∧ True) a.leaves names := by
    refine hleaves.imp ?_
    rintro leaf name ⟨w, l, hw, hcurrent, rfl, -⟩
    exact ⟨⟨l, rfl, offers_of_reached hs hw hcurrent⟩, trivial⟩
  exact ((List.forall₂_and_left _ _).1 hoffers).1

/-- Whatever operations have led to it, a walk stands on no leaf below a nested group that must not
occur, and on one that must not occur itself only as a member of a sequence or of a choice. The
children of a content without issues are attributed to such leaves. -/
theorem walks_offer (hs : s.Built) (root : GroupId) :
    (∀ v w m, Walk.Reached s root v w → w.current = some m → s.Offers root m) ∧
      ∀ names a, s.attribution root names = .ok a → a.issues = .ok [] →
        ∀ leaf ∈ a.leaves, ∃ m, leaf = some m ∧ s.Offers root m :=
  ⟨fun _ _ _ h hm => offers_of_reached hs h hm,
    fun _ _ h hissues => offers_of_attribution hs h hissues⟩

end Schema

/-- A choice of a `c` that must not occur, then an `a`, and a `b` that must not occur. -/
def offersSample : Components :=
  ((Components.withElements .v10 [("a", .once), ("b", .never), ("c", .once)]).withGroup .choice
    .never [.element ⟨2⟩]).withGroup .sequence .once [.group ⟨0⟩, .element ⟨0⟩, .element ⟨1⟩]

theorem start_offersSample : Walk.start offersSample.schema ⟨1⟩ .v10 = .ok ⟨⟨1⟩, .v10,
    ⟨⟨1⟩, [.element ⟨1⟩], false⟩, [], Tally.zero, Tally.zero, some (.element ⟨0⟩)⟩ := by
  decide +kernel

/-- The choice is passed over. -/
theorem walks_offer_sample : offersSample.schema.Built ∧
    ∃ w, Walk.Reached offersSample.schema ⟨1⟩ .v10 w ∧ w.current = some (.element ⟨0⟩) ∧
      offersSample.schema.Offers ⟨1⟩ (.element ⟨0⟩) := by
  have hs : offersSample.schema.Built :=
    (((Components.assembled_withElements ..).withGroup ..).withGroup ..).built rfl
  have hreached := Walk.Reached.start start_offersSample
  exact ⟨hs, _, hreached, rfl, (Schema.walks_offer hs ⟨1⟩).1 _ _ _ hreached rfl⟩

/-- Behind the `a` the walk stands on the `b` that must not occur, and a content with both has no
issues. -/
theorem offers_never : (offersSample.schema.occurs (.element ⟨1⟩)).max = some 0 ∧
    (∃ w, Walk.Reached offersSample.schema ⟨1⟩ .v10 w ∧ w.current = some (.element ⟨1⟩)) ∧
      offersSample.schema.issues ⟨1⟩ [.plain "a", .plain "b"] = .ok [] ∧
        (offersSample.schema.attribution ⟨1⟩ [.plain "a", .plain "b"]).toOption.map (·.leaves) =
          some [some (.element ⟨0⟩), some (.element ⟨1⟩)] := by
  have hadvance : Walk.advance offersSample.schema ⟨⟨1⟩, .v10, ⟨⟨1⟩, [.element ⟨1⟩], false⟩, [],
      Tally.zero, Tally.zero, some (.element ⟨0⟩)⟩ true = (.ok [], ⟨⟨1⟩, .v10,
        ⟨⟨1⟩, [], true⟩, [], ⟨[(.element ⟨0⟩, 1), (.element ⟨1⟩, 0)]⟩, Tally.zero,
        some (.element ⟨1⟩)⟩) := by
    decide +kernel
  refine ⟨by decide +kernel, ?_, by decide +kernel, by decide +kernel⟩
  exact ⟨_, (Walk.Reached.start start_offersSample).advance hadvance, rfl⟩

end Conform
