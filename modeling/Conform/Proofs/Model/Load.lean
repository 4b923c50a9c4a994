import Conform.Proofs.Model.Bulk
import Conform.Proofs.Model.Hops
import Conform.Proofs.Model.Steps
/-!
# What a walk has before it

Whatever a walk does without a child, it gets nearer to its end. A group is gone through once more
only if something has matched in it, and forgets that when it begins anew; a group that is entered
forgets how often it occurred. So what is to come is the members that are left in the groups around
the walk, and once more all of a group where something inside it may still match.
-/

namespace Conform

/-! ## Groups around a walk -/

/-- The groups around a group, each a member of the next one. -/
inductive Schema.Around (s : Schema) : GroupId → List Frame → Prop
  | root {g : GroupId} : Around s g []
  | nested {g : GroupId} {f : Frame} {outer : List Frame} :
      .group g ∈ (s.group f.group).members → Around s f.group outer → Around s g (f :: outer)

namespace Schema.Around

variable {s : Schema} {g : GroupId} {f : Frame} {outer : List Frame}

theorem index_lt (hs : s.Built) (h : s.Around g outer) :
    ∀ f ∈ outer, g.index < f.group.index := by
  induction h with
  | root => exact fun f hf => nomatch hf
  | nested hmem _ ih =>
      have hlt := hs.forest.index_lt hmem
      refine List.forall_mem_cons.2 ⟨hlt, fun f' hf' => ?_⟩
      exact hlt.trans (ih f' hf')

/-- Only the root may be an `all` group. -/
theorem eq_nil_of_all (hs : s.Built) (hv : s.version = .v10) (h : s.Around g outer)
    (hall : (s.group g).compositor = .all) : outer = [] := by
  cases h with
  | root => rfl
  | nested hmem _ => exact absurd hall (hs.compositor_ne_all hv hmem)

/-- There are no more groups around a group than there are. -/
theorem length_le (hs : s.Built) (h : s.Around g outer) : outer.length ≤ s.groups.size := by
  have hindex : outer = [] ∨ outer.length + g.index < s.groups.size := by
    induction h with
    | root => exact .inl rfl
    | @nested g f outer hmem _ ih =>
        have hlt := hs.forest.index_lt hmem
        have hsize := Components.index_lt_size hmem
        rcases ih with rfl | ih
        · exact .inr (by rw [List.length_singleton]; omega)
        · exact .inr (by rw [List.length_cons]; omega)
  rcases hindex with rfl | hlt
  · exact Nat.zero_le _
  · omega

end Schema.Around

/-! ## Where walks stand -/

namespace Walk

variable {s : Schema}

/-- The members through which a walk goes are those of the group, or leaves of it. -/
theorem mem_items {v : Version} {g : GroupId} {m : Member} (hm : m ∈ items s v g) :
    m ∈ (s.group g).members ∨ m ∈ s.leaves g := by
  unfold items at hm
  dsimp only at hm
  split at hm
  · cases hm
  split at hm
  · unfold Schema.unordered at hm
    split at hm
    · exact .inl hm
    · exact .inr hm
  · exact .inl hm

/-- A walk stands in groups around one another, and what is left of a group is the end of it. -/
structure Lodged (s : Schema) (w : Walk) : Prop where
  around : s.Around w.here.group w.outer
  rest : ∀ f ∈ w.here :: w.outer, f.rest <:+ items s w.version f.group
  current : ∀ m ∈ w.current, m.isGroup = false ∧ m ∈ s.particles

theorem Lodged.of_hop (hs : s.Built) {w w' : Walk} (hop : Hop s w w') (h : w.Lodged s) :
    w'.Lodged s := by
  obtain ⟨haround, hrest, hcurrent⟩ := h
  have hhere : w.here.rest <:+ items s w.version w.here.group := hrest _ List.mem_cons_self
  have houter : ∀ f ∈ w.outer, f.rest <:+ items s w.version f.group :=
    fun f hf => hrest f (List.mem_cons_of_mem _ hf)
  cases hop with
  | recount counts ceilings => exact ⟨haround, hrest, hcurrent⟩
  | mark matched => exact ⟨haround, List.forall_mem_cons.2 ⟨hhere, houter⟩, hcurrent⟩
  | rewind => exact ⟨haround, List.forall_mem_cons.2 ⟨List.suffix_rfl, houter⟩, hcurrent⟩
  | skip hsuffix =>
      exact ⟨haround, List.forall_mem_cons.2 ⟨hsuffix.trans hhere, houter⟩, hcurrent⟩
  | @stand m rest hsuffix hleaf =>
      refine ⟨haround, List.forall_mem_cons.2
        ⟨((List.suffix_cons m rest).trans hsuffix).trans hhere, houter⟩, ?_⟩
      rintro x ⟨rfl⟩
      refine ⟨hleaf, ?_⟩
      rcases mem_items ((hsuffix.trans hhere).subset List.mem_cons_self) with hm | hm
      · exact Components.mem_particles (hs.forest.isThere hm)
      · exact hs.mem_particles_of_leaf hm
  | @enter _ g rest hsuffix henter =>
      unfold Walk.enter at henter
      split at henter <;> cases henter
      have hmem : .group g ∈ (s.group w.here.group).members := by
        rcases mem_items ((hsuffix.trans hhere).subset List.mem_cons_self) with hm | hm
        · exact hm
        · cases hs.isGroup_of_mem_leaves hm
      exact ⟨.nested hmem haround, List.forall_mem_cons.2 ⟨List.suffix_rfl,
        List.forall_mem_cons.2 ⟨((List.suffix_cons _ rest).trans hsuffix).trans hhere, houter⟩⟩,
        hcurrent⟩
  | leave hleave =>
      unfold leave? at hleave
      split at hleave
      · cases hleave
      rename_i f outer heq
      cases hleave
      rw [heq] at haround houter
      cases haround with
      | nested _ haround => exact ⟨haround, houter, hcurrent⟩
  | halt => exact ⟨haround, hrest, nofun⟩

theorem Lodged.of_hops (hs : s.Built) {w w' : Walk} (h : Hops s w w') (hw : w.Lodged s) :
    w'.Lodged s :=
  h.keep (fun hop => Lodged.of_hop hs hop) hw

theorem lodged_clear (w : Walk) : (w.clear s).Lodged s :=
  ⟨.root, fun f hf => by rw [List.mem_singleton.1 hf]; exact List.suffix_rfl, nofun⟩

end Walk

/-! ## The load of a walk -/

/-- More than there is in a group. -/
def Schema.room (s : Schema) : Nat := 2 * (s.particles.length + 1)

section

variable (s : Schema) (counts ceilings : Tally)

/-- What it takes to go through members: each particle comes once, and a group is left again. -/
def passing (ms : List Member) : Nat := 2 * (ms.map s.bulk).sum

/-- An `all` group that may still be found to be full. -/
def isUnfilled (g : GroupId) : Bool :=
  (s.group g).compositor = .all &&
    !(s.group g).occurs.isOver (max (counts.count (.group g)) (ceilings.count (.group g)))

/-- What it takes to come to the end of a group and to leave it. A group in which something has
matched is gone through again, and an `all` group is found to be full at its end. -/
def Frame.load (f : Frame) : Nat :=
  passing s f.rest + 1 + (if f.matched then s.room else 0) +
    (isUnfilled s counts ceilings f.group).toNat

/-- Something has matched in a group, in this repetition or before. -/
def Frame.isWarm (f : Frame) : Bool := f.matched || 0 < counts.count (.group f.group)

/-- What it takes to leave groups around one another. If the walk comes from a particle that is
`warm`, each of them may have to be gone through again. -/
def loadFrom : Bool → List Frame → Nat
  | _, [] => 0
  | warm, f :: outer => f.load s counts ceilings + (if warm then s.room else 0) +
      loadFrom (warm || f.isWarm counts) outer

end

/-- What it takes to come to the end of a walk. -/
def Walk.load (s : Schema) (w : Walk) (warm : Bool) : Nat :=
  loadFrom s w.counts w.ceilings warm (w.here :: w.outer)

section

variable {s : Schema} {counts ceilings counts' ceilings' : Tally} {warm warm' : Bool}
  {outer : List Frame}

theorem passing_suffix {ms ms' : List Member} (h : ms <:+ ms') : passing s ms ≤ passing s ms' := by
  obtain ⟨before, rfl⟩ := h
  rw [passing, passing, List.map_append, List.sum_append]
  omega

/-- The members of a group have less in them than the group. -/
theorem passing_items_lt (hs : s.Built) (v : Version) (g : GroupId) :
    passing s (Walk.items s v g) + 2 ≤ 2 * s.bulk (.group g) := by
  have hgroup := Components.bulk_group hs.forest g
  have hmembers : passing s (s.group g).members + 2 = 2 * s.bulk (.group g) := by
    rw [hgroup, passing]
    omega
  unfold Walk.items
  dsimp only
  split
  · simp only [passing, List.map_nil, List.sum_nil]
    omega
  split
  · unfold Schema.unordered
    split
    · exact hmembers.le
    · -- each leaf counts for itself alone
      have hleaves : passing s (s.leaves g) = 2 * (s.leaves g).length := by
        have hall : ∀ m ∈ s.leaves g, s.bulk m = 1 :=
          fun m hm => Schema.bulk_leaf (hs.isGroup_of_mem_leaves hm)
        rw [passing, List.map_congr_left hall]
        simp
      have hlt := hs.length_leaves_lt g
      omega
  · exact hmembers.le

theorem passing_items_lt_room (hs : s.Built) (v : Version) (g : GroupId) :
    passing s (Walk.items s v g) + 2 ≤ s.room :=
  (passing_items_lt hs v g).trans
    (Nat.mul_le_mul_left 2 (Components.bulk_le hs.forest (.group g)))

theorem Frame.load_pos (f : Frame) (s : Schema) (counts ceilings : Tally) :
    0 < f.load s counts ceilings := by
  unfold Frame.load
  omega

theorem loadFrom_mono (h : warm = true → warm' = true) (outer : List Frame) :
    loadFrom s counts ceilings warm outer ≤ loadFrom s counts ceilings warm' outer := by
  induction outer generalizing warm warm' with
  | nil => exact Nat.le_refl _
  | cons f outer ih =>
      have hrest : loadFrom s counts ceilings (warm || f.isWarm counts) outer ≤
          loadFrom s counts ceilings (warm' || f.isWarm counts) outer := ih fun hor => by
        rcases Bool.or_eq_true_iff.1 hor with hwarm | hf
        · rw [h hwarm, Bool.true_or]
        · rw [hf, Bool.or_true]
      have hhere : (if warm = true then s.room else 0) ≤ if warm' = true then s.room else 0 := by
        by_cases hwarm : warm = true
        · rw [if_pos hwarm, if_pos (h hwarm)]
        · rw [if_neg hwarm]
          exact Nat.zero_le _
      unfold loadFrom
      omega

theorem le_loadFrom_cons (warm : Bool) (f : Frame) (outer : List Frame) :
    loadFrom s counts ceilings (warm || f.isWarm counts) outer ≤
      loadFrom s counts ceilings warm (f :: outer) := by
  rw [loadFrom]
  exact Nat.le_add_left ..

theorem loadFrom_true_le (outer : List Frame) : loadFrom s counts ceilings true outer ≤
    loadFrom s counts ceilings warm outer + outer.length * s.room := by
  induction outer generalizing warm with
  | nil => exact Nat.zero_le _
  | cons f outer ih =>
      have hrest : loadFrom s counts ceilings true outer ≤
          loadFrom s counts ceilings (warm || f.isWarm counts) outer + outer.length * s.room := ih
      rw [loadFrom, loadFrom, if_pos rfl, Bool.true_or, List.length_cons, Nat.succ_mul]
      omega

/-- Only the counts of the groups around count. -/
theorem loadFrom_congr (h : ∀ f ∈ outer,
    counts'.count (.group f.group) = counts.count (.group f.group) ∧
      ceilings'.count (.group f.group) = ceilings.count (.group f.group)) (warm : Bool) :
    loadFrom s counts' ceilings' warm outer = loadFrom s counts ceilings warm outer := by
  induction outer generalizing warm with
  | nil => rfl
  | cons f outer ih =>
      obtain ⟨hcount, hceiling⟩ := h f List.mem_cons_self
      rw [loadFrom, loadFrom, ih fun f' hf' => h f' (List.mem_cons_of_mem _ hf')]
      simp only [Frame.load, Frame.isWarm, isUnfilled, hcount, hceiling]

end

/-! ## Leaving members -/

namespace Walk

variable {s : Schema}

/-- What a walk does not touch of its counts when it leaves a member of a sequence. -/
theorem closeInSequence_eq (w : Walk) (m : Member) : ∃ counts' ceilings',
    (w.closeInSequence s m).2 =
      ⟨w.root, w.version, w.here, w.outer, counts', ceilings', w.current⟩ ∧
      ∀ x, x ≠ w.hereMember →
        counts'.count x = w.counts.count x ∧ ceilings'.count x = w.ceilings.count x := by
  unfold closeInSequence
  dsimp only
  split
  · exact countSequence_eq s w
  · exact ⟨_, _, rfl, fun _ _ => ⟨rfl, rfl⟩⟩

/-- An alternative that has occurred is counted for its choice, which begins anew. -/
theorem closeInChoice_eq {w : Walk} {m : Member} (h : 0 < w.count m) : ∃ counts' ceilings',
    (w.closeInChoice s m).2 = ⟨w.root, w.version, ⟨w.here.group, items s w.version w.here.group,
      false⟩, w.outer, counts', ceilings', w.current⟩ ∧ counts'.count m = 0 ∧
      ∀ x, x ≠ w.hereMember → x ≠ m →
        counts'.count x = w.counts.count x ∧ ceilings'.count x = w.ceilings.count x := by
  unfold closeInChoice
  rw [if_neg (by omega)]
  refine ⟨_, _, rfl, by simp, fun x hx hxm => ?_⟩
  have hhere : x ≠ .group w.here.group := hx
  simp [countChoice, addRepetitions, hereMember, hhere, hxm]

/-- A walk that leaves a member has no more before it than it had in the groups around it, where it
is told whether the member was there. In a sequence that knows of a match this is nothing new. -/
theorem load_closeItem (hs : s.Built) : ∀ (outer : List Frame) (m : Member) (w : Walk)
    (warm : Bool), s.Around w.here.group outer → (∀ f ∈ w.here :: outer, m ≠ .group f.group) →
      (0 < w.count m → warm = true ∨ (s.group w.here.group).compositor = .all ∨
        (s.group w.here.group).compositor = .sequence ∧ w.here.matched = true) →
      (closeItem s outer m w).2.load s false ≤
        loadFrom s w.counts w.ceilings warm (w.here :: outer)
  | outer, m, w, warm, haround, hne, hwarm => by
    have hindex := haround.index_lt hs
    have hother : ∀ f ∈ outer, Member.group f.group ≠ .group w.here.group := by
      intro f hf heq
      have hlt := hindex f hf
      rw [Member.group.inj heq] at hlt
      omega
    have hcold : loadFrom s w.counts w.ceilings false (w.here :: outer) ≤
        loadFrom s w.counts w.ceilings warm (w.here :: outer) :=
      loadFrom_mono (fun h => by cases h) _
    cases hcomp : (s.group w.here.group).compositor with
    | all =>
        rw [closeItem_all hcomp]
        exact hcold
    | choice =>
        rw [closeItem_choice hcomp]
        by_cases hcount : w.count m = 0
        · rw [closeInChoice_zero (w := { w with outer }) hcount]
          exact hcold
        · have htrue : warm = true := by
            simpa [hcomp] using hwarm (Nat.pos_of_ne_zero hcount)
          obtain ⟨counts', ceilings', heq, -, hsame⟩ :=
            closeInChoice_eq (s := s) (w := { w with outer }) (m := m) (Nat.pos_of_ne_zero hcount)
          rw [heq]
          have hrest : loadFrom s counts' ceilings' true outer =
              loadFrom s w.counts w.ceilings true outer :=
            loadFrom_congr (fun f hf => hsame (.group f.group) (hother f hf)
              (hne f (List.mem_cons_of_mem _ hf)).symm) true
          have hmono : loadFrom s counts' ceilings' (false || (⟨w.here.group,
              items s w.version w.here.group, false⟩ : Frame).isWarm counts') outer ≤
              loadFrom s counts' ceilings' true outer := loadFrom_mono (fun _ => rfl) outer
          have hroom := passing_items_lt_room hs w.version w.here.group
          have hpos := w.here.load_pos s w.counts w.ceilings
          subst htrue
          simp only [load, loadFrom, Frame.load, isUnfilled, hcomp, reduceCtorEq, decide_false,
            Bool.false_and, if_false, Bool.false_eq_true, Bool.true_or, if_true] at hmono hrest hpos ⊢
          omega
    | sequence =>
        by_cases hcounted : w.here.matched = true ∨ 0 < w.count m
        · rw [closeItem_counted hcomp hcounted]
          obtain ⟨counts', ceilings', heq, hsame⟩ := closeInSequence_eq (s := s)
            { w with outer, here := { w.here with matched := true } } m
          rw [heq]
          have hrest : loadFrom s counts' ceilings' true outer =
              loadFrom s w.counts w.ceilings true outer :=
            loadFrom_congr (fun f hf => hsame (.group f.group) (hother f hf)) true
          have hknown : warm = true ∨ w.here.matched = true := by
            rcases hcounted with hmatched | hcount
            · exact .inr hmatched
            · simpa [hcomp] using hwarm hcount
          have hwarmth : (warm || w.here.isWarm w.counts) = true := by
            rcases hknown with h | h <;> simp [Frame.isWarm, h]
          simp only [load, loadFrom, Frame.load, isUnfilled, Frame.isWarm, hcomp, reduceCtorEq,
            decide_false, Bool.false_and, if_false, Bool.false_eq_true, Bool.true_or, Bool.false_or,
            if_true] at hrest hwarmth ⊢
          rw [hrest, hwarmth]
          rcases hknown with h | h
          · rw [if_pos h]
            omega
          · rw [if_pos h]
            omega
        · rw [not_or, Bool.not_eq_true, Nat.not_lt, Nat.le_zero] at hcounted
          by_cases hempty : s.isEmptiable m = true
          · rw [closeItem_emptiable hcomp hcounted.1 hcounted.2 hempty]
            exact hcold
          · rw [closeItem_unmatched hcomp hcounted.1 hcounted.2 (by simpa using hempty)]
            cases outer with
            | nil =>
                dsimp only
                split <;> exact hcold
            | cons f outer =>
                -- the sequence ends as well, and it is warm if it occurred before
                cases haround with
                | nested hmem haround =>
                    have hclose := load_closeItem hs outer w.hereMember
                      { w with here := f, outer := f :: outer } (warm || w.here.isWarm w.counts)
                      haround (fun f' hf' => (hother f' hf').symm) (fun hcount => .inl (by
                        have hpos : 0 < w.counts.count (.group w.here.group) := hcount
                        simp [Frame.isWarm, hpos]))
                    exact hclose.trans (le_loadFrom_cons ..)

/-- A group that is left takes what there was to do in it away. -/
theorem load_closeGroup (hs : s.Built) {w : Walk} (haround : s.Around w.here.group w.outer)
    (houter : w.outer ≠ []) : (w.closeGroup s).2.load s false + 1 ≤ w.load s false := by
  unfold closeGroup
  cases hout : w.outer with
  | nil => exact absurd hout houter
  | cons f outer =>
      rw [hout] at haround
      have hindex := haround.index_lt hs
      cases haround with
      | nested hmem haround =>
          have hclose := load_closeItem hs outer w.hereMember
            { w with here := f, outer := f :: outer } (w.here.isWarm w.counts) haround (fun f' hf' heq => by
              have hlt := hindex f' hf'
              rw [Member.group.inj heq] at hlt
              omega) (fun hcount => .inl (by
                have hpos : 0 < w.counts.count (.group w.here.group) := hcount
                simp [Frame.isWarm, hpos]))
          have hpos := w.here.load_pos s w.counts w.ceilings
          rw [load.eq_1 (w := w), hout, loadFrom.eq_2 (f := w.here), Bool.false_or]
          simp only [Bool.false_eq_true, if_false] at hclose ⊢
          omega

/-! ## Steps -/

/-- No leaf is counted. -/
def Fades (w w' : Walk) : Prop := ∀ x : Member, x.isGroup = false → w'.count x ≤ w.count x

theorem Fades.refl (w : Walk) : w.Fades w := fun _ _ => Nat.le_refl _

theorem Fades.trans {w w' w'' : Walk} (h : w.Fades w') (h' : w'.Fades w'') : w.Fades w'' :=
  fun x hx => (h' x hx).trans (h x hx)

theorem fades_closeItem : ∀ (outer : List Frame) (m : Member) (w : Walk),
    w.Fades (closeItem s outer m w).2
  | outer, m, w => by
    have hhere : ∀ x : Member, x.isGroup = false → x ≠ .group w.here.group := by
      rintro x hx rfl
      cases hx
    cases hcomp : (s.group w.here.group).compositor with
    | all =>
        rw [closeItem_all hcomp]
        exact .refl w
    | choice =>
        rw [closeItem_choice hcomp]
        by_cases hcount : w.count m = 0
        · rw [closeInChoice_zero (w := { w with outer }) hcount]
          exact .refl w
        · obtain ⟨counts', ceilings', heq, hzero, hsame⟩ :=
            closeInChoice_eq (s := s) (w := { w with outer }) (m := m) (Nat.pos_of_ne_zero hcount)
          intro x hx
          rw [heq]
          by_cases hxm : x = m
          · rw [hxm]
            exact hzero.le.trans (Nat.zero_le _)
          · exact (hsame x (hhere x hx) hxm).1.le
    | sequence =>
        by_cases hcounted : w.here.matched = true ∨ 0 < w.count m
        · rw [closeItem_counted hcomp hcounted]
          obtain ⟨counts', ceilings', heq, hsame⟩ := closeInSequence_eq (s := s)
            { w with outer, here := { w.here with matched := true } } m
          intro x hx
          rw [heq]
          exact (hsame x (hhere x hx)).1.le
        · rw [not_or, Bool.not_eq_true, Nat.not_lt, Nat.le_zero] at hcounted
          by_cases hempty : s.isEmptiable m = true
          · rw [closeItem_emptiable hcomp hcounted.1 hcounted.2 hempty]
            exact .refl w
          · rw [closeItem_unmatched hcomp hcounted.1 hcounted.2 (by simpa using hempty)]
            cases outer with
            | nil =>
                dsimp only
                split <;> exact .refl w
            | cons f outer =>
                exact fades_closeItem outer w.hereMember { w with here := f, outer := f :: outer }

theorem fades_closeGroup (w : Walk) : w.Fades (w.closeGroup s).2 := by
  unfold closeGroup
  split
  · exact .refl w
  · exact fades_closeItem _ _ _

/-- A walk has come nearer to its end. -/
structure Nearer (s : Schema) (w w' : Walk) : Prop where
  load_lt : w'.load s false < w.load s false
  fades : w.Fades w'

theorem Nearer.after {w w' w'' : Walk} (h : Nearer s w' w'')
    (hload : w'.load s false ≤ w.load s false) (hfades : w.Fades w') : Nearer s w w'' :=
  ⟨h.load_lt.trans_le hload, hfades.trans h.fades⟩

/-- The walk stands on a leaf, which has not occurred if the group is a sequence. -/
def IsFresh (s : Schema) (w : Walk) : Prop :=
  ∃ m, w.current = some m ∧ ((s.group w.here.group).compositor = .sequence → w.count m = 0)

end Walk

/-- A step brings a walk nearer to its end, or ends it. -/
inductive Move.Nears (s : Schema) (w : Walk) : Move → Prop
  | again {p : Passage} : w.Nearer s p.walk → Nears s w (.again p)
  | placed {p : Passage} : w.Nearer s p.walk → p.walk.IsFresh s → Nears s w (.placed p)
  | ended (p : Passage) : Nears s w (.ended p)
  | failed {f : Failure} {p : Passage} : f.EndsWalk s → f ≠ .endlessModel →
      Nears s w (.failed f p)

theorem Move.Nears.after {s : Schema} {w w' : Walk} {move : Move} (h : move.Nears s w')
    (hload : w'.load s false ≤ w.load s false) (hfades : w.Fades w') : move.Nears s w := by
  cases h with
  | again hnearer => exact .again (hnearer.after hload hfades)
  | placed hnearer hfresh => exact .placed (hnearer.after hload hfades) hfresh
  | ended p => exact .ended p
  | failed hends hne => exact .failed hends hne

namespace Passage

open Walk

variable {s : Schema}

/-- A group that the walk leaves for another one is done with. -/
theorem nearer_closeGroup (hs : s.Built) {w w' : Walk} {missing : Bool}
    (haround : s.Around w.here.group w.outer) (h : w.closeGroup s = (some missing, w')) :
    w.Nearer s w' := by
  have houter : w.outer ≠ [] := by
    intro hnil
    rw [closeGroup_of_root hnil] at h
    cases h
  have hload := load_closeGroup hs haround houter
  have hfades := fades_closeGroup (s := s) w
  rw [h] at hload hfades
  exact ⟨hload, hfades⟩

theorem nears_afterClose (hs : s.Built) (p : Passage) {w : Walk}
    (haround : s.Around w.here.group w.outer) : (p.afterClose (w.closeGroup s)).Nears s w := by
  cases hclose : w.closeGroup s with
  | mk missing w' =>
      cases missing with
      | none => exact .ended _
      | some missing => exact .again (nearer_closeGroup hs haround hclose)

/-- A group that begins anew has forgotten that something has matched. -/
theorem nearer_restartGroup (hs : s.Built) {w : Walk} (hmatched : w.here.matched = true) :
    w.Nearer s (w.restartGroup s) := by
  refine ⟨?_, .refl w⟩
  have hroom := passing_items_lt_room hs w.version w.here.group
  have hmono : loadFrom s w.counts w.ceilings (false || (⟨w.here.group,
      items s w.version w.here.group, false⟩ : Frame).isWarm w.counts) w.outer ≤
      loadFrom s w.counts w.ceilings true w.outer := loadFrom_mono (fun _ => rfl) w.outer
  have hwarm : w.here.isWarm w.counts = true := by simp [Frame.isWarm, hmatched]
  simp only [load, restartGroup, loadFrom, Frame.load, hwarm, hmatched, Bool.false_or,
    Bool.false_eq_true, if_false, if_true] at hmono ⊢
  omega

theorem nears_leaveUnmatched (hs : s.Built) (hv : s.version = .v10) (p : Passage)
    (haround : s.Around p.walk.here.group p.walk.outer) :
    (p.leaveUnmatched s).Nears s p.walk := by
  unfold leaveUnmatched
  dsimp only
  by_cases hall : (s.group p.walk.here.group).compositor = .all
  · have hroot := haround.eq_nil_of_all hs hv hall
    rw [closeGroup_of_root (by split <;> exact hroot)]
    exact .ended _
  · have hno : ((s.group p.walk.here.group).compositor = .all && p.walk.isSatisfied s) = false := by
      simp [hall]
    simp only [hno, Bool.false_eq_true, if_false]
    cases hclose : p.walk.closeGroup s with
    | mk missing w' =>
        cases missing with
        | none => exact .ended _
        | some missing =>
            dsimp only
            split
            · exact .again (nearer_closeGroup hs haround hclose)
            · exact .again (nearer_closeGroup hs haround hclose)

theorem nears_leaveAll (hs : s.Built) (hv : s.version = .v10) (p : Passage)
    (haround : s.Around p.walk.here.group p.walk.outer)
    (hall : (s.group p.walk.here.group).compositor = .all) (hmatched : p.walk.here.matched = true)
    (hover : p.walk.isGroupOver s = false) : (p.leaveAll s).Nears s p.walk := by
  have hroot := haround.eq_nil_of_all hs hv hall
  unfold leaveAll
  dsimp only
  split
  · generalize hq : (if (s.group p.walk.here.group).occurs.min = 0 then
      p.report (p.walk.violation s p.walk.hereMember (p.walk.count p.walk.hereMember)) else p) = q
    have hwalk : q.walk = p.walk := by
      rw [← hq]
      split <;> rfl
    have hleave : q.walk.leave? = none := by rw [hwalk, leave?, hroot]
    rw [← hwalk, hleave]
    exact .ended _
  · split
    · exact .again (nearer_restartGroup hs hmatched)
    · split
      · -- the group is found full in the next step
        rename_i hone
        refine .again ⟨?_, fun x hx => ?_⟩
        · have hfull : (s.group p.walk.here.group).occurs.isOver
              (max 1 (p.walk.ceilings.count (.group p.walk.here.group))) = true := by
            obtain ⟨n, hn, hle⟩ := Occurs.isOver_iff.1 hone
            exact Occurs.isOver_iff.2 ⟨n, hn, hle.trans (Nat.le_max_left ..)⟩
          have hnot : (s.group p.walk.here.group).occurs.isOver
              (max (p.walk.counts.count (.group p.walk.here.group))
                (p.walk.ceilings.count (.group p.walk.here.group))) = false := hover
          simp [load, loadFrom, Frame.load, isUnfilled, hroot, hall, hereMember, hfull, hnot]
        · have hne : x ≠ .group p.walk.here.group := by
            rintro rfl
            cases hx
          simp [count, hereMember, hne]
      · rw [closeGroup_of_root (w := { p.walk with counts := p.walk.counts.set _ 1 }) hroot]
        exact .ended _

/-- The end of a group is left, or the group begins anew. -/
theorem nears_leaveEnd (hs : s.Built) (hv : s.version = .v10) (p : Passage)
    (haround : s.Around p.walk.here.group p.walk.outer) (hover : p.walk.isGroupOver s = false) :
    (p.leaveEnd s).Nears s p.walk := by
  unfold leaveEnd
  cases hmatched : p.walk.here.matched with
  | false =>
      simp only [Bool.not_false, if_true]
      exact nears_leaveUnmatched hs hv p haround
  | true =>
      simp only [Bool.not_true, Bool.false_eq_true, if_false]
      split
      · rename_i hall
        exact nears_leaveAll hs hv p haround hall hmatched hover
      · exact .again (nearer_restartGroup hs hmatched)

/-- Passing over members takes them away. -/
theorem load_skip {w : Walk} {rest : List Member} {m : Member} (h : m :: rest <:+ w.here.rest) :
    load s { w with here := { w.here with rest } } false + 2 * s.bulk m ≤ w.load s false := by
  have hpass := passing_suffix (s := s) h
  simp only [passing, List.map_cons, List.sum_cons] at hpass
  simp only [load, loadFrom, Frame.load, Frame.isWarm, passing]
  omega

theorem nears_place (p : Passage) (m : Member) (hm : m.isGroup = false) {w : Walk}
    (hload : p.walk.load s false < w.load s false) (hfades : w.Fades p.walk) :
    (p.place s m).Nears s w := by
  have hgroup : ∀ g : GroupId, Member.group g ≠ m := by
    rintro g rfl
    cases hm
  unfold place
  dsimp only
  split
  · refine .placed ⟨?_, hfades.trans fun x hx => ?_⟩ ?_
    · have hsame : loadFrom s (p.walk.counts.set m 0) p.walk.ceilings false
          (p.walk.here :: p.walk.outer) = p.walk.load s false :=
        loadFrom_congr (fun f _ => ⟨by simp [hgroup f.group], rfl⟩) false
      exact hsame.trans_lt hload
    · simp only [count, Tally.count_set]
      split <;> omega
    · exact ⟨m, rfl, fun _ => by simp [count]⟩
  · rename_i hno
    exact .placed ⟨hload, hfades⟩ ⟨m, rfl, fun hseq => absurd hseq hno⟩

/-- A group that is entered comes with less than it had as a member. -/
theorem nears_enterGroup (hs : s.Built) (hv : s.version = .v10) (p : Passage) {g : GroupId}
    (hg : .group g ∈ (s.group p.walk.here.group).members)
    (haround : s.Around p.walk.here.group p.walk.outer) {w : Walk}
    (hload : p.walk.load s false + 2 * s.bulk (.group g) ≤ w.load s false)
    (hfades : w.Fades p.walk) : (p.enterGroup s g).Nears s w := by
  unfold enterGroup
  cases henter : p.walk.enter s g with
  | error f =>
      obtain ⟨hends, hne⟩ := endsWalk_of_enter henter
      exact .failed hends hne
  | ok w' =>
      unfold enter at henter
      split at henter <;> cases henter
      refine .again ⟨?_, hfades.trans fun x hx => ?_⟩
      · have hindex := (Schema.Around.nested hg haround).index_lt hs
        have hsame : loadFrom s (p.walk.counts.set (.group g) 0)
            (p.walk.ceilings.set (.group g) 0) false (p.walk.here :: p.walk.outer) =
            loadFrom s p.walk.counts p.walk.ceilings false (p.walk.here :: p.walk.outer) :=
          loadFrom_congr (fun f hf => by
            have hlt := hindex f hf
            have hne : f.group ≠ g := by
              rintro rfl
              omega
            simp [hne]) false
        have hall := hs.compositor_ne_all hv hg
        have hroom := passing_items_lt hs p.walk.version g
        rw [load.eq_1, loadFrom.eq_2]
        simp only [Frame.load, isUnfilled, Frame.isWarm, hall, decide_false, Bool.false_and,
          Bool.toNat_false, Bool.false_eq_true, if_false, Tally.count_set, if_true,
          Nat.lt_irrefl, Bool.or_self]
        rw [hsame]
        rw [load.eq_1] at hload
        omega
      · have hne : x ≠ .group g := by
          rintro rfl
          cases hx
        simp [count, hne]

/-- A step brings a walk nearer to its end. -/
theorem nears_step (hs : s.Built) (hv : s.version = .v10) (p : Passage)
    (hw : p.walk.Lodged s) : (p.step s).Nears s p.walk := by
  obtain ⟨w, last, violations⟩ := p
  by_cases hover : w.isGroupOver s = true
  · rw [step_of_over hover]
    exact nears_afterClose hs _ hw.around
  rw [Bool.not_eq_true] at hover
  cases hnext : w.nextItem s with
  | mk item w' =>
    obtain ⟨rest, hsuffix, rfl⟩ := nextItem_suffix hnext
    cases item with
    | none =>
        rw [step_of_none hover hnext]
        refine (nears_leaveEnd hs hv ⟨{ w with here := { w.here with rest } }, none, violations⟩
          hw.around hover).after ?_ (.refl _)
        have hpass := passing_suffix (s := s) hsuffix
        simp only [Option.toList_none, List.nil_append] at hpass
        simp only [load, loadFrom, Frame.load, Frame.isWarm]
        omega
    | some m =>
        have hload : load s { w with here := { w.here with rest } } false + 2 * s.bulk m ≤
            w.load s false := Passage.load_skip hsuffix
        have hitem : m ∈ items s w.version w.here.group :=
          (hw.rest _ List.mem_cons_self).subset (hsuffix.subset List.mem_cons_self)
        cases hm : m.isGroup with
        | false =>
            rw [step_of_leaf hover hnext hm]
            have hbulk := s.bulk_pos m
            exact nears_place ⟨{ w with here := { w.here with rest } }, some m, violations⟩ m hm
              (Nat.lt_of_lt_of_le (Nat.lt_add_of_pos_right (Nat.mul_pos Nat.two_pos hbulk)) hload)
              (.refl _)
        | true =>
            cases m with
            | element e => cases hm
            | wildcard x => cases hm
            | group g =>
                rw [step_of_group hover hnext]
                have hmember : .group g ∈ (s.group w.here.group).members := by
                  rcases mem_items hitem with hmem | hleaf
                  · exact hmem
                  · cases hs.isGroup_of_mem_leaves hleaf
                exact nears_enterGroup hs hv
                  ⟨{ w with here := { w.here with rest } }, some (.group g), violations⟩
                  hmember hw.around hload (.refl _)

end Passage

end Conform
