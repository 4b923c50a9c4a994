import Conform.Proofs.Model.Acceptance
import Conform.Proofs.Model.Budget
import Conform.Proofs.Model.Leaves
/-!
# Walks that meet no child

A walk to which no child comes counts nothing on its way from leaf to leaf. What it passes over can
be empty, and a sequence in which nothing has matched is left with its first member that must occur.
-/

namespace Conform

namespace Schema

/-! ## Groups that cannot be empty -/

variable {s : Schema} {root g : GroupId} {m : Member}

namespace Built

theorem isEmptiable_of_never (hs : s.Built) (hmax : (s.occurs m).max = some 0) :
    s.isEmptiable m = true :=
  hs.isEmptiable_of_min (Nat.le_zero.1 (hs.min_le_max m 0 hmax))

/-- A member whose leaves all can be empty can be so. -/
theorem isEmptiable_of_leavesIn (hs : s.Built) (m : Member) :
    (∀ l ∈ s.leavesIn m, s.isEmptiable l = true) → s.isEmptiable m = true := by
  induction m using hs.forest.induction with
  | leaf m hm =>
      intro h
      rw [leavesIn_leaf hm] at h
      exact h m List.mem_cons_self
  | group g ih =>
      intro h
      by_cases hmax : (s.group g).occurs.max = some 0
      · exact hs.isEmptiable_of_never hmax
      have hin : s.leavesIn (.group g) = s.leaves g := leavesIn_eq (m := .group g) hmax
      rw [hin, hs.leaves_eq_flatMap] at h
      exact hs.isEmptiable_of_forall fun x hx =>
        ih x hx fun l hl => h l (List.mem_flatMap.2 ⟨x, hx, hl⟩)

/-- Members whose leaves all can be empty can be so. -/
theorem isEmptiable_of_mem (hs : s.Built) (h : ∀ l ∈ s.leaves g, s.isEmptiable l = true)
    (hm : m ∈ (s.group g).members) : s.isEmptiable m = true :=
  hs.isEmptiable_of_leavesIn m fun l hl => by
    rw [hs.leaves_eq_flatMap] at h
    exact h l (List.mem_flatMap.2 ⟨m, hm, hl⟩)

/-- A group whose leaves all can be empty can be so. -/
theorem isEmptiable_of_forall_leaves (hs : s.Built)
    (h : ∀ l ∈ s.leaves g, s.isEmptiable l = true) : s.isEmptiable (.group g) = true :=
  hs.isEmptiable_of_forall fun _ hm => hs.isEmptiable_of_mem h hm

/-- The members of an `all` group can be empty if what a walk goes through in it can be so. -/
theorem isHollow_of_unordered (hs : s.Built) {v : Version} (hall : (s.group g).compositor = .all)
    (h : ∀ x ∈ s.unordered v g, s.isEmptiable x = true) : s.isHollow g = true := by
  rw [isHollow, hall]
  refine List.all_eq_true.2 fun x hx => ?_
  cases v with
  | v10 => exact h x hx
  | v11 => exact hs.isEmptiable_of_mem h hx

/-- What cannot be empty has a leaf. -/
theorem leavesIn_ne_nil (hs : s.Built) (hm : s.isEmptiable m = false) : s.leavesIn m ≠ [] := by
  intro hnil
  rw [hs.isEmptiable_of_leavesIn m (by rw [hnil]; exact fun l hl => nomatch hl)] at hm
  cases hm

/-- A group that must occur and has members can be empty just if an occurrence of it can be. -/
theorem isEmptiable_iff_isHollow (hs : s.Built) (hmin : (s.group g).occurs.min ≠ 0)
    (hmembers : (s.group g).members ≠ []) :
    s.isEmptiable (.group g) = true ↔ s.isHollow g = true := by
  rw [hs.isEmptiable_eq]
  simp [Occurs.isEmptiable, hmin, hmembers]

/-- A sequence that must occur and has a member that must occur cannot be empty. -/
theorem isEmptiable_eq_false (hs : s.Built) (hseq : (s.group g).compositor = .sequence)
    (hmin : (s.group g).occurs.min ≠ 0) (hm : m ∈ (s.group g).members)
    (hempty : s.isEmptiable m = false) : s.isEmptiable (.group g) = false := by
  by_contra hyes
  have hhollow := (hs.isEmptiable_iff_isHollow hmin (List.ne_nil_of_mem hm)).1 (by simpa using hyes)
  rw [isHollow, hseq] at hhollow
  rw [List.all_eq_true.1 hhollow m hm] at hempty
  cases hempty

/-- Members through which a walk goes tell whether their group can be empty. -/
theorem isEmptiable_of_items (hs : s.Built) {v : Version}
    (h : ∀ x ∈ Walk.items s v g, s.isEmptiable x = true) : s.isEmptiable (.group g) = true := by
  unfold Walk.items at h
  dsimp only at h
  split at h
  · rename_i hoccurs
    exact hs.isEmptiable_of_never (m := .group g) (of_decide_eq_true hoccurs)
  · split at h
    · cases v with
      | v10 => exact hs.isEmptiable_of_forall h
      | v11 => exact hs.isEmptiable_of_forall_leaves h
    · exact hs.isEmptiable_of_forall h

end Built

/-- A group that cannot be empty has a member that is expected as long as what cannot be empty has
not occurred. -/
theorem expected_ne_nil (hs : s.Built) {w : Walk} (hcount : ∀ x ∈ (s.group w.here.group).members,
    s.isEmptiable x = false → w.count x < (s.occurs x).min.toNat)
    (hg : s.isEmptiable w.hereMember = false) : w.expected s ≠ [] := by
  -- in a choice all members count, else there is one that must occur
  obtain ⟨x, hx, hempty⟩ : ∃ x ∈ (s.group w.here.group).members, s.isEmptiable x = false := by
    by_contra hno
    push Not at hno
    rw [Walk.hereMember, hs.isEmptiable_of_forall fun x hx => by simpa using hno x hx] at hg
    cases hg
  intro hnil
  unfold Walk.expected at hnil
  dsimp only at hnil
  rw [List.flatMap_eq_nil_iff] at hnil
  have hleaves := hnil x (List.mem_filter.2 ⟨hx, by simp [hcount x hx hempty]⟩)
  cases x with
  | element e => cases hleaves
  | wildcard x => cases hleaves
  | group sub =>
      have hin := hs.leavesIn_ne_nil hempty
      exact hin hleaves

end Schema

/-! ## Where walks stand that have met no child -/

/-- A group to which a walk without children comes. The members of an `all` group are gone through
leaf by leaf. -/
inductive Schema.Visited (s : Schema) (root : GroupId) : GroupId → Prop
  | root : Visited s root root
  | member {g sub : GroupId} : Visited s root g → (s.group g).compositor ≠ .all →
      (s.group g).occurs.max ≠ some 0 → .group sub ∈ (s.group g).members → Visited s root sub

theorem Schema.Visited.index_le {s : Schema} {root g : GroupId} (hs : s.Built)
    (h : s.Visited root g) : g.index ≤ root.index := by
  induction h with
  | root => exact Nat.le_refl _
  | member _ _ _ hmem ih => exact (hs.forest.index_lt hmem).le.trans ih

namespace Walk

/-- The groups around a group, up to the root group, each of them behind the one that was entered. -/
inductive Amid (s : Schema) (root : GroupId) : GroupId → List Frame → Prop
  | root : Amid s root root []
  | nested {g : GroupId} {f : Frame} {outer : List Frame} : Amid s root f.group outer →
      (s.group f.group).compositor ≠ .all → .group g :: f.rest <:+ items s s.version f.group →
      Amid s root g (f :: outer)

/-- A walk at the beginning of a group that was the next member. -/
def entering (s : Schema) (w : Walk) (g : GroupId) (rest : List Member) : Walk :=
  { w with here := ⟨g, items s w.version g, false⟩, outer := { w.here with rest } :: w.outer }

/-- A walk is in a group inside the root group. -/
structure Roams (s : Schema) (root : GroupId) (w : Walk) : Prop where
  version : w.version = s.version
  amid : Amid s root w.here.group w.outer
  rest : w.here.rest <:+ items s s.version w.here.group

/-- A walk that has met no child and has counted nothing. -/
structure Childless (s : Schema) (root : GroupId) (w : Walk) : Prop extends Roams s root w where
  matched : ∀ f ∈ w.here :: w.outer, f.matched = false
  count_eq_zero : ∀ m, w.counts.count m = 0
  ceiling_eq_zero : ∀ m, w.ceilings.count m = 0

variable {s : Schema} {root g : GroupId} {m : Member} {outer : List Frame} {w : Walk}

theorem mem_members_of_items {v : Version} (hall : (s.group g).compositor ≠ .all)
    (hm : m ∈ items s v g) : m ∈ (s.group g).members := by
  unfold items at hm
  dsimp only at hm
  split at hm
  · cases hm
  · exact hm

theorem max_ne_zero_of_items {v : Version} (hm : m ∈ items s v g) :
    (s.group g).occurs.max ≠ some 0 := by
  intro hmax
  rw [items, if_pos (by simpa [Occurs.isEmpty] using hmax)] at hm
  cases hm

namespace Amid

/-- The group behind the one that was entered. -/
theorem suffix {f : Frame} (h : Amid s root g (f :: outer)) :
    .group g :: f.rest <:+ items s s.version f.group := by
  cases h with
  | nested _ _ hrest => exact hrest

/-- A group that was entered is a member of the next one. -/
theorem mem_outer {f : Frame} (h : Amid s root g (f :: outer)) :
    .group g ∈ (s.group f.group).members := by
  cases h with
  | nested _ hall hrest => exact mem_members_of_items hall (hrest.subset List.mem_cons_self)

theorem visited (h : Amid s root g outer) : s.Visited root g := by
  induction h with
  | root => exact .root
  | nested hamid hall hrest ih =>
      have hmem := hrest.subset List.mem_cons_self
      exact ih.member hall (max_ne_zero_of_items hmem) (mem_members_of_items hall hmem)

theorem index_le (hs : s.Built) (h : Amid s root g outer) :
    g.index + outer.length ≤ root.index := by
  induction h with
  | root => exact Nat.le_refl _
  | nested hamid hall hrest ih =>
      have hlt := hs.forest.index_lt (mem_outer (.nested hamid hall hrest))
      rw [List.length_cons]
      omega

theorem ne_root (hs : s.Built) (h : Amid s root g outer) (houter : outer ≠ []) : g ≠ root := by
  rintro rfl
  have hle := h.index_le hs
  have hpos := List.length_pos_iff.2 houter
  omega

theorem eq_root (h : Amid s root g []) : g = root := by
  cases h
  rfl

/-- A walk in a group that may occur is in a root group that may occur. -/
theorem max_root (h : Amid s root g outer) (hmax : (s.group g).occurs.max ≠ some 0) :
    (s.group root).occurs.max ≠ some 0 := by
  induction h with
  | root => exact hmax
  | nested _ _ hrest ih => exact ih (max_ne_zero_of_items (hrest.subset List.mem_cons_self))

/-- Nothing is entered in a root group whose members come in any order. -/
theorem eq_root_of_all (h : Amid s root g outer) (hall : (s.group root).compositor = .all) :
    g = root := by
  induction h with
  | root => rfl
  | nested _ hne _ ih =>
      rw [ih, hall] at hne
      exact absurd rfl hne

/-- The bound on the depth admits a group inside the innermost one. -/
theorem room {sub : GroupId} (h : Amid s root g outer)
    (hroot : s.isWithin s.limits.maxModelDepth root = true)
    (hsub : .group sub ∈ (s.group g).members) :
    s.limits.isModelDepthExceeded (outer.length + 1) = false := by
  have hwithin : ∀ {g outer}, Amid s root g outer → ∃ k,
      outer.length + k = s.limits.maxModelDepth ∧ s.isWithin k g = true := by
    intro g outer h
    induction h with
    | root => exact ⟨_, Nat.zero_add _, hroot⟩
    | nested hamid hall hrest ih =>
        obtain ⟨k, hk, hwithin⟩ := ih
        obtain ⟨k, rfl, hsub⟩ :=
          Schema.isWithin_of_nested hwithin (mem_outer (.nested hamid hall hrest))
        exact ⟨k, by rw [List.length_cons]; omega, hsub⟩
  obtain ⟨k, hk, hhere⟩ := hwithin h
  obtain ⟨k, rfl, -⟩ := Schema.isWithin_of_nested hhere hsub
  have hle : outer.length + 1 ≤ s.limits.maxModelDepth := by omega
  simpa [Limits.isModelDepthExceeded] using hle

end Amid

/-- The next member, and the members that were passed over. -/
inductive Next (s : Schema) (w : Walk) : Option Member × Walk → Prop
  | some {passed rest : List Member} {m : Member} : w.here.rest = passed ++ m :: rest →
      (∀ x ∈ passed, w.isPassed s x = true) → w.isPassed s m = false →
      Next s w (some m, { w with here := { w.here with rest } })
  | none : (∀ x ∈ w.here.rest, w.isPassed s x = true) →
      Next s w (none, { w with here := { w.here with rest := [] } })

theorem next_nextItem (s : Schema) (w : Walk) : w.Next s (w.nextItem s) := by
  have hsplit := List.takeWhile_append_dropWhile (p := w.isPassed s) (l := w.here.rest)
  have hpassed : ∀ x ∈ w.here.rest.takeWhile (w.isPassed s), w.isPassed s x = true :=
    fun x hx => List.mem_takeWhile_imp hx
  have hhead := List.head?_dropWhile_not (w.isPassed s) w.here.rest
  unfold nextItem
  cases hdrop : w.here.rest.dropWhile (w.isPassed s) with
  | nil =>
      rw [hdrop, List.append_nil] at hsplit
      exact .none (hsplit ▸ hpassed)
  | cons m rest =>
      rw [hdrop] at hsplit hhead
      exact .some hsplit.symm hpassed (by simpa using hhead)

namespace Roams

theorem eq_root (h : w.Roams s root) (houter : w.outer = []) : w.here.group = root := by
  have hamid := h.amid
  rw [houter] at hamid
  exact hamid.eq_root

/-- A group that is left is a member of the next one. -/
theorem mem_outer {f : Frame} (h : w.Roams s root) (houter : w.outer = f :: outer) :
    w.hereMember ∈ (s.group f.group).members := by
  have hamid := h.amid
  rw [houter] at hamid
  exact hamid.mem_outer

theorem skip (h : w.Roams s root) {rest : List Member} (hrest : rest <:+ w.here.rest) :
    Roams s root { w with here := { w.here with rest } } :=
  ⟨h.version, h.amid, hrest.trans h.rest⟩

theorem leave {f : Frame} (h : w.Roams s root) (houter : w.outer = f :: outer) :
    Roams s root { w with here := f, outer } := by
  have hamid := h.amid
  rw [houter] at hamid
  cases hamid with
  | nested hamid _ hrest => exact ⟨h.version, hamid, (List.suffix_cons ..).trans hrest⟩

/-- A group that is the next member can be entered. -/
theorem enter {passed rest : List Member} (h : w.Roams s root)
    (hrest : w.here.rest = passed ++ .group g :: rest)
    (hpassed : w.isPassed s (.group g) = false) :
    (w.entering s g rest).Roams s root := by
  have hall : (s.group w.here.group).compositor ≠ .all := by
    intro hall
    simp [isPassed, hall, Member.isGroup] at hpassed
  have hsuffix : .group g :: rest <:+ w.here.rest := ⟨passed, hrest.symm⟩
  exact ⟨h.version, .nested h.amid hall (hsuffix.trans h.rest), h.version ▸ List.suffix_rfl⟩

end Roams

namespace Childless

theorem reach_eq_zero (h : w.Childless s root) (m : Member) : w.reach m = 0 := by
  rw [reach, h.count_eq_zero, h.ceiling_eq_zero, Nat.max_self]

theorem count_le (h : w.Childless s root) (m : Member) (n : Nat) : w.count m ≤ n :=
  (h.count_eq_zero m).trans_le n.zero_le

/-- What is passed over need not occur. -/
theorem isEmptiable_of_isPassed (h : w.Childless s root) (hs : s.Built)
    (hm : m ∈ items s s.version w.here.group) (hpassed : w.isPassed s m = true) :
    s.isEmptiable m = true := by
  simp only [isPassed, Bool.and_eq_true, decide_eq_true_eq, Bool.or_eq_true, count,
    h.count_eq_zero] at hpassed
  obtain ⟨hall, hgroup | hover⟩ := hpassed
  · unfold items at hm
    dsimp only at hm
    split at hm
    · cases hm
    cases hv : s.version with
    | v10 =>
        rw [hv] at hm
        rw [(hs.all_member hv hall hm).1] at hgroup
        cases hgroup
    | v11 =>
        rw [hv] at hm
        rw [hs.isGroup_of_mem_leaves hm] at hgroup
        cases hgroup
  · obtain ⟨n, hn, hle⟩ := Occurs.isOver_iff.1 hover
    obtain rfl : n = 0 := UInt32.toNat_inj.1 (Nat.le_zero.1 hle)
    exact hs.isEmptiable_of_never hn

theorem max_ne_zero_of_isPassed (hm : w.isPassed s m = false)
    (hall : (s.group w.here.group).compositor = .all) : (s.occurs m).max ≠ some 0 := by
  intro hmax
  simp [isPassed, hall, Occurs.isOver, hmax] at hm

/-! ## Changes -/

theorem recount (h : w.Childless s root) {counts ceilings : Tally}
    (hcounts : ∀ m, counts.count m = 0) (hceilings : ∀ m, ceilings.count m = 0) :
    Childless s root { w with counts, ceilings } :=
  ⟨⟨h.version, h.amid, h.rest⟩, h.matched, hcounts, hceilings⟩

theorem stand (h : w.Childless s root) (current : Option Member) :
    Childless s root { w with current } :=
  ⟨⟨h.version, h.amid, h.rest⟩, h.matched, h.count_eq_zero, h.ceiling_eq_zero⟩

theorem skip (h : w.Childless s root) (rest : List Member) (hrest : rest <:+ w.here.rest) :
    Childless s root { w with here := { w.here with rest } } :=
  ⟨h.toRoams.skip hrest, List.forall_mem_cons.2 (List.forall_mem_cons.1 h.matched),
    h.count_eq_zero, h.ceiling_eq_zero⟩

theorem leave {f : Frame} (h : w.Childless s root) (houter : w.outer = f :: outer) :
    Childless s root { w with here := f, outer } :=
  ⟨h.toRoams.leave houter, fun f' hf' => h.matched f' (List.mem_cons_of_mem _ (houter ▸ hf')),
    h.count_eq_zero, h.ceiling_eq_zero⟩

/-- A group that is the next member can be entered. -/
theorem enter {passed rest : List Member} (h : w.Childless s root)
    (hroot : s.isWithin s.limits.maxModelDepth root = true)
    (hrest : w.here.rest = passed ++ .group g :: rest)
    (hpassed : w.isPassed s (.group g) = false) :
    Walk.enter s { w with here := { w.here with rest } } g = .ok (w.entering s g rest) ∧
      (w.entering s g rest).Childless s root := by
  have hroams := h.toRoams.enter hrest hpassed
  have hroom := h.amid.room hroot hroams.amid.mem_outer
  have hmatched := (h.skip rest ⟨passed ++ [.group g], by simp [hrest]⟩).matched
  exact ⟨by simp [Walk.enter, entering, hroom], hroams, List.forall_mem_cons.2 ⟨rfl, hmatched⟩,
    h.count_eq_zero, h.ceiling_eq_zero⟩

end Childless

/-! ## Leaving members -/

/-- What the end of a member leads to that has not occurred: the walk goes on in one of the groups,
or a root sequence misses a member, or need not have it. -/
inductive Closed (s : Schema) (root : GroupId) (fs : List Frame) : Option Bool × Walk → Prop
  | goesOn {w : Walk} : w.Childless s root → w.here :: w.outer <:+ fs →
      Closed s root fs (some false, w)
  | misses {w : Walk} : w.Childless s root → w.here :: w.outer <:+ fs →
      s.isEmptiable (.group root) = false → Closed s root fs (some true, w)
  | ends {w : Walk} : w.Childless s root → w.outer = [] → (s.group root).occurs.min = 0 →
      Closed s root fs (none, w)

/-- The groups inside that were left before do not matter. -/
theorem Closed.within {f : Frame} {fs : List Frame} {r : Option Bool × Walk}
    (h : Closed s root fs r) : Closed s root (f :: fs) r := by
  cases h with
  | goesOn hw hsuffix => exact .goesOn hw (hsuffix.trans (List.suffix_cons ..))
  | misses hw hsuffix hempty => exact .misses hw (hsuffix.trans (List.suffix_cons ..)) hempty
  | ends hw houter hmin => exact .ends hw houter hmin

theorem closed_closeItem (hs : s.Built) : ∀ (outer : List Frame) (m : Member) (w : Walk),
    Childless s root { w with outer } →
    ((s.group w.here.group).compositor ≠ .all → m ∈ (s.group w.here.group).members) →
    Closed s root (w.here :: outer) (closeItem s outer m w)
  | outer, m, w, h, hm => by
    have hcount : w.count m = 0 := h.count_eq_zero m
    cases hcomp : (s.group w.here.group).compositor with
    | choice =>
        rw [closeItem_choice hcomp, closeInChoice_zero (w := { w with outer }) hcount]
        exact .goesOn h List.suffix_rfl
    | all =>
        rw [closeItem_all hcomp]
        exact .goesOn h List.suffix_rfl
    | sequence =>
        by_cases hempty : s.isEmptiable m = true
        · rw [closeItem_emptiable hcomp (h.matched _ List.mem_cons_self) hcount hempty]
          exact .goesOn h List.suffix_rfl
        rw [Bool.not_eq_true] at hempty
        rw [closeItem_unmatched hcomp (h.matched _ List.mem_cons_self) hcount hempty]
        cases outer with
        | cons f outer =>
            exact (closed_closeItem hs outer w.hereMember { w with here := f, outer := f :: outer }
              (h.leave rfl) fun _ => h.mem_outer rfl).within
        | nil =>
            obtain rfl : w.here.group = root := h.amid.eq_root
            have hreach : w.reach w.hereMember = 0 := h.reach_eq_zero _
            dsimp only
            split
            · rename_i hle
              rw [hreach, Nat.le_zero] at hle
              exact .ends h rfl (UInt32.toNat_inj.1 hle)
            · rename_i hlt
              refine .misses h List.suffix_rfl
                (hs.isEmptiable_eq_false hcomp (fun hmin => hlt ?_) (hm (by simp [hcomp])) hempty)
              rw [hmin]
              exact Nat.zero_le _

/-- A group is left for the groups around it. -/
theorem closed_closeGroup {f : Frame} (hs : s.Built) (h : w.Childless s root)
    (houter : w.outer = f :: outer) : Closed s root (f :: outer) (w.closeGroup s) := by
  have hclosed := closed_closeItem hs outer w.hereMember { w with here := f } (h.leave houter)
    fun _ => h.mem_outer houter
  simp only [closeGroup, houter] at hclosed ⊢
  exact hclosed

end Walk

end Conform
