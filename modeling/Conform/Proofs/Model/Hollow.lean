import Conform.Proofs.Model.Silence
/-!
# Groups accepted without children

A walk that meets no child counts only groups that can be empty by what is in them, and leaves no
member of a sequence behind that must occur unless it says so. Whatever the group, then, nothing is
reported of a content without children only if the facts about the group say that it can be empty.
-/

namespace Conform

namespace Walk

variable {s : Schema} {root g : GroupId} {m : Member} {outer : List Frame} {f : Frame} {w : Walk}
  {last : Option Member} {violations : List Violation}

/-! ## What is counted -/

/-- A walk that has met no child. What it has counted can be empty by what is in it. -/
structure Unfed (s : Schema) (root : GroupId) (w : Walk) : Prop extends Roams s root w where
  matched : ∀ f ∈ w.here :: w.outer, (s.group f.group).compositor = .all → f.matched = false
  hollow : ∀ m, 0 < w.reach m → ∃ g, m = .group g ∧ s.isHollow g = true

theorem Childless.unfed (h : w.Childless s root) : w.Unfed s root :=
  ⟨h.toRoams, fun f hf _ => h.matched f hf, fun m hm => by
    rw [h.reach_eq_zero] at hm
    cases hm⟩

namespace Unfed

/-- What has occurred often enough can be empty. -/
theorem isEmptiable_of_reach (h : w.Unfed s root) (hs : s.Built)
    (hle : (s.occurs m).min.toNat ≤ w.reach m) : s.isEmptiable m = true := by
  by_cases hzero : w.reach m = 0
  · exact hs.isEmptiable_of_min (Nat.le_zero.1 (hzero ▸ hle))
  · obtain ⟨g, rfl, hhollow⟩ := h.hollow m (Nat.pos_of_ne_zero hzero)
    exact hs.isEmptiable_of_isHollow hhollow

theorem isEmptiable_of_count (h : w.Unfed s root) (hs : s.Built)
    (hle : (s.occurs m).min.toNat ≤ w.count m) : s.isEmptiable m = true :=
  h.isEmptiable_of_reach hs (hle.trans (Nat.le_max_left ..))

/-- A group that is full can be empty. -/
theorem isEmptiable_of_isGroupOver (h : w.Unfed s root) (hs : s.Built)
    (hover : w.isGroupOver s = true) : s.isEmptiable w.hereMember = true := by
  obtain ⟨n, hn, hle⟩ := Occurs.isOver_iff.1 hover
  exact h.isEmptiable_of_reach hs ((hs.min_le_max w.hereMember n hn).trans hle)

theorem recount (h : w.Unfed s root) {counts ceilings : Tally}
    (hcounts : ∀ m, 0 < max (counts.count m) (ceilings.count m) →
      0 < w.reach m ∨ ∃ g, m = .group g ∧ s.isHollow g = true) :
    Unfed s root { w with counts, ceilings } :=
  ⟨⟨h.version, h.amid, h.rest⟩, h.matched, fun m hm => (hcounts m hm).elim (h.hollow m) id⟩

/-- Counts that are taken back. -/
theorem forget (h : w.Unfed s root) (m : Member) :
    Unfed s root { w with counts := w.counts.set m 0 } :=
  h.recount fun x hx => by
    rw [Tally.count_set] at hx
    split at hx
    · exact .inl (hx.trans_le (max_le (Nat.zero_le _) (Nat.le_max_right ..)))
    · exact .inl hx

theorem skip (h : w.Unfed s root) {rest : List Member} (hrest : rest <:+ w.here.rest) :
    Unfed s root { w with here := { w.here with rest } } :=
  ⟨h.toRoams.skip hrest, List.forall_mem_cons.2 (List.forall_mem_cons.1 h.matched), h.hollow⟩

theorem leave (h : w.Unfed s root) (houter : w.outer = f :: outer) :
    Unfed s root { w with here := f, outer } :=
  ⟨h.toRoams.leave houter, fun f' hf' => h.matched f' (List.mem_cons_of_mem _ (houter ▸ hf')),
    h.hollow⟩

theorem restartGroup (h : w.Unfed s root) : (w.restartGroup s).Unfed s root :=
  ⟨⟨h.version, h.amid, h.version ▸ List.suffix_rfl⟩,
    List.forall_mem_cons.2 ⟨fun _ => rfl, (List.forall_mem_cons.1 h.matched).2⟩, h.hollow⟩

/-- Something has matched in a sequence. -/
theorem mark (h : w.Unfed s root) (hne : (s.group w.here.group).compositor ≠ .all) :
    Unfed s root { w with here := { w.here with matched := true } } :=
  ⟨⟨h.version, h.amid, h.rest⟩, List.forall_mem_cons.2 ⟨fun hall => absurd hall hne,
    (List.forall_mem_cons.1 h.matched).2⟩, h.hollow⟩

/-- A group that can be empty by what is in it is counted. -/
theorem recountHere (h : w.Unfed s root) (hhollow : s.isHollow w.here.group = true)
    {counts ceilings : Tally} (hsame : ∀ x, x ≠ w.hereMember →
      counts.count x = w.counts.count x ∧ ceilings.count x = w.ceilings.count x) :
    Unfed s root { w with counts, ceilings } :=
  h.recount fun x hx => by
    by_cases hgroup : x = w.hereMember
    · exact .inr ⟨_, hgroup, hhollow⟩
    · rw [(hsame x hgroup).1, (hsame x hgroup).2] at hx
      exact .inl hx

theorem countChoice (h : w.Unfed s root) (hhollow : s.isHollow w.here.group = true) :
    (w.countChoice s m).Unfed s root :=
  h.recountHere hhollow fun x hx => by simp [hx]

theorem countSequence (h : w.Unfed s root) (hhollow : s.isHollow w.here.group = true) :
    (w.countSequence s).Unfed s root := by
  obtain ⟨counts, ceilings, heq, hsame⟩ := countSequence_eq s w
  rw [heq]
  exact h.recountHere hhollow hsame

/-- A group of which nothing is expected can be empty. -/
theorem isEmptiable_of_expected (h : w.Unfed s root) (hs : s.Built) (hnone : w.expected s = []) :
    s.isEmptiable w.hereMember = true := by
  by_contra hne
  refine Schema.expected_ne_nil hs (fun x _ hempty => ?_) (by simpa using hne) hnone
  by_contra hle
  rw [h.isEmptiable_of_count hs (not_lt.1 hle)] at hempty
  cases hempty

end Unfed

/-! ## What is left behind -/

/-- In the sequences around one another, whatever the walk has come past can be empty; `now` is
where it is in the first of the groups. -/
def Unmissed (s : Schema) : List Member → List Frame → Prop
  | _, [] => True
  | now, f :: outer =>
    ((s.group f.group).compositor = .sequence → ∀ x ∈ items s s.version f.group,
      s.isEmptiable x = false → x ∈ now ++ f.rest) ∧ Unmissed s [.group f.group] outer

theorem Unskipped.unmissed : ∀ {now : List Member} {fs : List Frame}, Unskipped s now fs →
    Unmissed s now fs
  | _, [], _ => trivial
  | _, _ :: _, h => ⟨fun _ => h.1, h.2.unmissed⟩

namespace Unmissed

/-- A walk comes past a member that can be empty. -/
theorem past (h : Unmissed s [m] (f :: outer)) (hm : s.isEmptiable m = true) :
    Unmissed s [] (f :: outer) := by
  refine ⟨fun hseq x hx hne => ?_, h.2⟩
  rcases List.mem_cons.1 (h.1 hseq x hx hne) with rfl | hin
  · rw [hm] at hne
    cases hne
  · exact hin

/-- A walk that is in no sequence, or at the beginning of one, has come past nothing. -/
theorem anew {now : List Member} (h : Unmissed s now (f :: outer)) (f' : Frame)
    (hgroup : f'.group = f.group)
    (hrest : (s.group f.group).compositor = .sequence → f'.rest = items s s.version f.group) :
    Unmissed s [] (f' :: outer) :=
  ⟨fun hseq x hx _ => by
    rw [hgroup] at hseq hx
    rwa [List.nil_append, hrest hseq], hgroup ▸ h.2⟩

/-- At the last member of a sequence all others can be empty. -/
theorem isEmptiable_of_last (h : Unmissed s [m] (f :: outer)) (hs : s.Built)
    (hseq : (s.group f.group).compositor = .sequence)
    (hrest : m :: f.rest <:+ items s s.version f.group) (hm : s.isEmptiable m = true)
    (hlast : (s.group f.group).members.getLast? = some m) : s.isHollow f.group = true := by
  have hitems : items s s.version f.group = (s.group f.group).members :=
    items_of_ne_all (by simp [hseq]) (max_ne_zero_of_items (hrest.subset List.mem_cons_self))
  obtain ⟨before, hbefore⟩ := hrest
  rw [hitems] at hbefore
  have hnil : f.rest = [] :=
    (getLast?_eq_some_iff (hbefore ▸ hs.forest.nodup f.group)).1 (hbefore ▸ hlast)
  rw [Schema.isHollow, hseq]
  refine List.all_eq_true.2 fun x hx => ?_
  by_contra hne
  have hin := (h.past hm).1 hseq x (hitems ▸ hx) (by simpa using hne)
  rw [hnil] at hin
  cases hin

/-- Nothing is passed over in a sequence. -/
theorem pass (h : Unmissed s [] (w.here :: w.outer)) {passed rest : List Member}
    (hrest : w.here.rest = passed ++ rest) (hpassed : ∀ x ∈ passed, w.isPassed s x = true) :
    Unmissed s [] ({ w.here with rest } :: w.outer) := by
  refine ⟨fun hseq x hx hne => ?_, h.2⟩
  have hin := h.1 hseq x hx hne
  rw [List.nil_append, hrest] at hin
  rcases List.mem_append.1 hin with hin | hin
  · have hpass := hpassed x hin
    rw [isPassed, hseq] at hpass
    cases hpass
  · exact hin

end Unmissed

/-! ## Leaving members -/

/-- What the end of a member leads to: the walk goes on in one of the groups, the member is missed,
or the walk is over. -/
inductive Ending (s : Schema) (root : GroupId) (m : Member) : Option Bool × Walk → Prop
  | goesOn {missing : Bool} {w : Walk} : w.Unfed s root → Unmissed s [] (w.here :: w.outer) →
      Ending s root m (some missing, w)
  | misses {w : Walk} : s.isEmptiable m = false → Ending s root m (some true, w)
  | ends {w : Walk} : s.isEmptiable (.group root) = true → Ending s root m (none, w)

theorem Ending.within {x : Member} {r : Option Bool × Walk} (h : Ending s root x r)
    (hm : s.isEmptiable m = false) : Ending s root m r := by
  cases h with
  | goesOn hw hunmissed => exact .goesOn hw hunmissed
  | misses => exact .misses hm
  | ends hempty => exact .ends hempty

/-- The end of a member in a choice counts the choice if it counts the member. -/
theorem ending_closeInChoice (h : w.Unfed s root)
    (hchoice : (s.group w.here.group).compositor = .choice)
    (hm : m ∈ (s.group w.here.group).members) (hs : s.Built)
    (hunmissed : Unmissed s [m] (w.here :: w.outer)) :
    Ending s root m (some (w.closeInChoice s m).1, (w.closeInChoice s m).2) := by
  have hnot : (s.group w.here.group).compositor ≠ .sequence := by simp [hchoice]
  by_cases hcount : w.count m = 0
  · rw [closeInChoice_zero hcount]
    exact .goesOn h (hunmissed.anew w.here rfl fun hseq => absurd hseq hnot)
  · have hpos : 0 < w.reach m := (Nat.pos_of_ne_zero hcount).trans_le (Nat.le_max_left ..)
    obtain ⟨sub, rfl, hsub⟩ := h.hollow m hpos
    have hhollow : s.isHollow w.here.group = true := by
      rw [Schema.isHollow, hchoice]
      exact List.any_eq_true.2 ⟨_, hm, hs.isEmptiable_of_isHollow hsub⟩
    unfold closeInChoice
    rw [if_neg hcount]
    exact .goesOn ((h.countChoice hhollow).forget (.group sub)).restartGroup
      (hunmissed.anew _ rfl fun hseq => absurd hseq hnot)

/-- The end of a member in a sequence in which something has matched. -/
theorem ending_closeInSequence (h : w.Unfed s root)
    (hseq : (s.group w.here.group).compositor = .sequence)
    (hrest : m :: w.here.rest <:+ items s s.version w.here.group) (hs : s.Built)
    (hunmissed : Unmissed s [m] (w.here :: w.outer)) :
    Ending s root m (some (w.closeInSequence s m).1, (w.closeInSequence s m).2) := by
  have hmem := mem_members_of_items (by simp [hseq]) (hrest.subset List.mem_cons_self)
  obtain ⟨w', hw', heq⟩ : ∃ w', w.closeInSequence s m = ((s.occurs m).isMissing (w.reach m), w') ∧
      (w' = w ∨ w' = w.countSequence s ∧ (s.group w.here.group).members.getLast? = some m) := by
    unfold closeInSequence
    split
    · rename_i hlast
      obtain ⟨counts, ceilings, heq, hsame⟩ := countSequence_eq s w
      have hm := hsame m fun hself => hs.forest.ne_of_mem (hself ▸ hmem) rfl
      refine ⟨_, ?_, .inr ⟨rfl, hlast⟩⟩
      rw [heq]
      simp only [reach, hm.1, hm.2]
    · exact ⟨_, rfl, .inl rfl⟩
  rw [hw']
  cases hm : s.isEmptiable m with
  | true =>
      rcases heq with rfl | ⟨rfl, hlast⟩
      · exact .goesOn h (hunmissed.past hm)
      · have hcounted := h.countSequence (hunmissed.isEmptiable_of_last hs hseq hrest hm hlast)
        obtain ⟨counts, ceilings, heq, -⟩ := countSequence_eq s w
        rw [heq] at hcounted ⊢
        exact .goesOn hcounted (hunmissed.past hm)
  | false =>
      have hmissing : (s.occurs m).isMissing (w.reach m) = true := by
        by_contra hno
        rw [h.isEmptiable_of_reach hs (by simpa [Occurs.isMissing] using hno)] at hm
        cases hm
      rw [hmissing]
      exact .misses hm

theorem ending_closeItem (hs : s.Built) : ∀ (outer : List Frame) (m : Member) (w : Walk),
    Unfed s root { w with outer } → m :: w.here.rest <:+ items s s.version w.here.group →
    Unmissed s [m] (w.here :: outer) → Ending s root m (closeItem s outer m w)
  | outer, m, w, h, hrest, hunmissed => by
    cases hcomp : (s.group w.here.group).compositor with
    | choice =>
        rw [closeItem_choice hcomp]
        exact ending_closeInChoice h hcomp
          (mem_members_of_items (by simp [hcomp]) (hrest.subset List.mem_cons_self)) hs hunmissed
    | all =>
        rw [closeItem_all hcomp]
        exact .goesOn h (hunmissed.anew w.here rfl fun hseq => by cases hcomp.symm.trans hseq)
    | sequence =>
        by_cases hcounted : w.here.matched = true ∨ 0 < w.count m
        · rw [closeItem_counted hcomp hcounted]
          exact ending_closeInSequence (h.mark (by simp [hcomp])) hcomp hrest hs hunmissed
        rw [not_or, Bool.not_eq_true, Nat.pos_iff_ne_zero, not_not] at hcounted
        cases hempty : s.isEmptiable m with
        | true =>
            rw [closeItem_emptiable hcomp hcounted.1 hcounted.2 hempty]
            exact .goesOn h (hunmissed.past hempty)
        | false =>
            -- nothing has matched, so the sequence ends itself, as a member of the group around it
            rw [closeItem_unmatched hcomp hcounted.1 hcounted.2 hempty]
            cases outer with
            | cons f outer =>
                exact (ending_closeItem hs outer w.hereMember
                  { w with here := f, outer := f :: outer } (h.leave rfl) h.amid.suffix
                  hunmissed.2).within hempty
            | nil =>
                obtain rfl : w.here.group = root := h.amid.eq_root
                dsimp only
                split
                · rename_i hle
                  exact .ends (h.isEmptiable_of_reach hs (m := w.hereMember) hle)
                · exact .misses hempty

/-- A group is left for the groups around it. -/
theorem ending_closeGroup (h : w.Unfed s root) (hs : s.Built) (houter : w.outer = f :: outer)
    (hunmissed : Unmissed s [] (w.here :: w.outer)) :
    Ending s root w.hereMember (w.closeGroup s) := by
  have hamid := h.amid
  have houtside := hunmissed.2
  rw [houter] at hamid houtside
  have hending := ending_closeItem hs outer w.hereMember { w with here := f } (h.leave houter)
    hamid.suffix houtside
  simp only [closeGroup, houter] at hending ⊢
  exact hending

/-! ## From leaf to leaf -/

/-- A walk that has met no child stands on a leaf. -/
structure LingersOn (s : Schema) (root : GroupId) (w : Walk) (m : Member) : Prop where
  current : w.current = some m
  unfed : w.Unfed s root
  rest : m :: w.here.rest <:+ items s s.version w.here.group
  unmissed : Unmissed s [m] (w.here :: w.outer)

/-- What a walk without children comes to unless there is a violation. -/
def Sinks (s : Schema) (root : GroupId) : Move → Prop :=
  Move.Holds (fun p => p.walk.Unfed s root ∧ Unmissed s [] (p.walk.here :: p.walk.outer))
    (fun p => ∃ m, p.walk.LingersOn s root m)
    fun p => (finish s p).1 = [] → s.isEmptiable (.group root) = true

/-- At the end of the root group nothing is reported only if it can be empty. -/
theorem Unfed.isEmptiable_of_finish (h : w.Unfed s root) (hs : s.Built) (houter : w.outer = [])
    (hseq : (s.group w.here.group).compositor = .sequence → s.isEmptiable w.hereMember = true)
    (hnone : (finish s ⟨w, none, violations⟩).1 = []) : s.isEmptiable (.group root) = true := by
  obtain rfl := h.eq_root houter
  rcases (finish_eq_nil hnone).2 with ⟨-, hcomplete⟩ | ⟨hmissing, -⟩
  · cases hcomp : (s.group w.here.group).compositor with
    | choice =>
        rw [isIncomplete_choice hcomp] at hcomplete
        cases hcomplete
    | sequence => exact hseq hcomp
    | all =>
        simp only [isIncomplete, hcomp, List.any_eq_false, decide_eq_true_eq, not_lt] at hcomplete
        exact hs.isEmptiable_of_forall fun x hx => h.isEmptiable_of_count hs (hcomplete x hx)
  · exact h.isEmptiable_of_reach hs (not_lt.1 (of_decide_eq_false hmissing))

/-- A group is left, and no member is missed. -/
theorem Ending.sinks {r : Option Bool × Walk} (h : Ending s root m r)
    (hm : s.isEmptiable m = true) : Sinks s root (Passage.afterClose ⟨w, last, violations⟩ r) := by
  cases h with
  | goesOn hw hunmissed => exact fun _ => ⟨hw, hunmissed⟩
  | misses hempty =>
      rw [hm] at hempty
      cases hempty
  | ends hempty => exact fun _ _ => hempty

section

variable (hs : s.Built) (h : w.Unfed s root) (hunmissed : Unmissed s [] (w.here :: w.outer))
include hs h hunmissed

/-- A group that is full is left. -/
theorem sinks_over (hover : w.isGroupOver s = true) :
    Sinks s root (Passage.afterClose ⟨w, last, violations⟩ (w.closeGroup s)) := by
  have hempty := h.isEmptiable_of_isGroupOver hs hover
  cases houter : w.outer with
  | nil =>
      rw [closeGroup_of_root houter]
      exact fun _ _ => h.eq_root houter ▸ hempty
  | cons f outer => exact (ending_closeGroup h hs houter hunmissed).sinks hempty

/-- A group in which nothing has matched is left. -/
theorem sinks_leaveUnmatched (hrest : w.here.rest = []) :
    Sinks s root (Passage.leaveUnmatched s ⟨w, none, violations⟩) := by
  have hcounted : Unfed s root (if (s.group w.here.group).compositor = .all && w.isSatisfied s then
      { w with counts := w.counts.set w.hereMember 1 } else w) := by
    split
    · rename_i hsatisfied
      rw [Bool.and_eq_true, decide_eq_true_eq, isSatisfied, List.all_eq_true] at hsatisfied
      refine h.recountHere (hs.isHollow_of_unordered hsatisfied.1 fun x hx =>
        h.isEmptiable_of_count hs (of_decide_eq_true (hsatisfied.2 x hx))) fun x hx => ?_
      simp [hx]
    · exact h
  -- the count of a satisfied `all` group moves the walk nowhere
  have hsame : ∀ {w' : Walk}, (if (s.group w.here.group).compositor = .all && w.isSatisfied s then
      { w with counts := w.counts.set w.hereMember 1 } else w) = w' →
      w'.here = w.here ∧ w'.outer = w.outer := by
    rintro w' rfl
    split <;> exact ⟨rfl, rfl⟩
  unfold Passage.leaveUnmatched
  dsimp only
  generalize hw : (if (s.group w.here.group).compositor = .all && w.isSatisfied s then
    { w with counts := w.counts.set w.hereMember 1 } else w) = w' at hcounted ⊢
  obtain ⟨hhere, houtside⟩ := hsame hw
  rw [← hhere, ← houtside] at hunmissed
  rw [← hhere] at hrest
  cases houter : w'.outer with
  | nil =>
      rw [closeGroup_of_root houter]
      refine fun _ hnone => hcounted.isEmptiable_of_finish hs houter (fun hseq => ?_) hnone
      refine hs.isEmptiable_of_items (v := s.version) fun x hx => ?_
      by_contra hne
      have hin := hunmissed.1 hseq x hx (by simpa using hne)
      rw [hrest] at hin
      cases hin
  | cons f outer =>
      have hending := ending_closeGroup hcounted hs houter hunmissed
      generalize w'.closeGroup s = r at hending ⊢
      cases hending with
      | ends hempty => exact fun _ _ => hempty
      | goesOn hw' hmore =>
          dsimp only
          split
          · exact Passage.report_ne_nil
          · exact fun _ => ⟨hw', hmore⟩
      | misses hempty =>
          dsimp only
          split
          · exact Passage.report_ne_nil
          · rename_i hno
            rw [hcounted.isEmptiable_of_expected hs (by simpa using hno)] at hempty
            cases hempty

/-- The group of a walk comes to its end. -/
theorem sinks_leaveEnd (hrest : w.here.rest = []) :
    Sinks s root (Passage.leaveEnd s ⟨w, none, violations⟩) := by
  unfold Passage.leaveEnd
  split
  · exact sinks_leaveUnmatched hs h hunmissed hrest
  · rename_i hmatched
    split
    · rename_i hall
      rw [h.matched _ List.mem_cons_self hall] at hmatched
      exact absurd rfl hmatched
    · exact fun _ => ⟨h.restartGroup, hunmissed.anew _ rfl fun _ => by
        rw [← h.version]
        rfl⟩

omit hs hunmissed in
/-- A group that is the next member is entered, unless the groups are nested too deep. -/
theorem sinks_enterGroup {passed rest : List Member}
    (hrest : w.here.rest = passed ++ .group g :: rest) (hpassed : w.isPassed s (.group g) = false)
    (hnext : Unmissed s [.group g] ({ w.here with rest } :: w.outer)) :
    Sinks s root
      (Passage.enterGroup s ⟨{ w with here := { w.here with rest } }, last, violations⟩ g) := by
  have hentered : (w.entering s g rest).Unfed s root :=
    ⟨h.toRoams.enter hrest hpassed, List.forall_mem_cons.2 ⟨fun _ => rfl,
      List.forall_mem_cons.2 (List.forall_mem_cons.1 h.matched)⟩, h.hollow⟩
  unfold Passage.enterGroup Walk.enter
  dsimp only
  split
  · trivial
  · rename_i w' hw'
    split at hw'
    · cases hw'
    cases hw'
    refine fun _ => ⟨hentered.recount fun x hx => .inl ?_, fun _ x hx _ => h.version ▸ hx, hnext⟩
    simp only [Tally.count_set] at hx
    split at hx
    · cases hx
    · exact hx

omit hs hunmissed in
/-- A leaf that is the next member is stood on. -/
theorem sinks_place {rest : List Member} (hrest : m :: rest <:+ w.here.rest)
    (hnext : Unmissed s [m] ({ w.here with rest } :: w.outer)) :
    Sinks s root
      (Passage.place s ⟨{ w with here := { w.here with rest } }, last, violations⟩ m) := by
  have hskip := h.skip ((List.suffix_cons m rest).trans hrest)
  have hforget := hskip.forget m
  have hitems := hrest.trans h.rest
  unfold Passage.place
  dsimp only
  split
  · exact fun _ => ⟨m, rfl, ⟨⟨hforget.version, hforget.amid, hforget.rest⟩, hforget.matched,
      hforget.hollow⟩, hitems, hnext⟩
  · exact fun _ => ⟨m, rfl, ⟨⟨hskip.version, hskip.amid, hskip.rest⟩, hskip.matched,
      hskip.hollow⟩, hitems, hnext⟩

/-- A step of a walk that has met no child. -/
theorem sinks_step : Sinks s root (Passage.step s ⟨w, last, violations⟩) := by
  by_cases hover : w.isGroupOver s = true
  · rw [Passage.step_of_over hover]
    exact sinks_over hs h hunmissed hover
  rw [Bool.not_eq_true] at hover
  have hnext := next_nextItem s w
  generalize heq : w.nextItem s = next at hnext
  cases hnext with
  | none hpassed =>
      rw [Passage.step_of_none hover heq]
      exact sinks_leaveEnd hs (h.skip List.nil_suffix)
        (hunmissed.pass (List.append_nil _).symm hpassed) rfl
  | @some passed rest m hrest hpassed hm =>
      have hbehind : Unmissed s [m] ({ w.here with rest } :: w.outer) :=
        hunmissed.pass hrest hpassed
      cases hgroup : m.isGroup with
      | false =>
          rw [Passage.step_of_leaf hover heq hgroup]
          exact sinks_place h ⟨passed, hrest.symm⟩ hbehind
      | true =>
          obtain ⟨g, rfl⟩ : ∃ g, m = .group g := by
            cases m with
            | element e | wildcard x => cases hgroup
            | group g => exact ⟨g, rfl⟩
          rw [Passage.step_of_group hover heq]
          exact sinks_enterGroup h hrest hm hbehind

end

theorem sinks_run (hs : s.Built) {n : Nat} {p : Passage} (h : p.violations = [] →
    p.walk.Unfed s root ∧ Unmissed s [] (p.walk.here :: p.walk.outer)) :
    Sinks s root (p.run s n) :=
  Passage.run_holds (fun _ _ hp => sinks_step hs hp.1 hp.2) h

/-- A walk without children is on a leaf, or has come to its end in a group that can be empty. -/
def Lingers (s : Schema) (root : GroupId) (w : Walk) : Prop :=
  (∃ m, w.LingersOn s root m) ∨ w.current = none ∧ s.isEmptiable (.group root) = true

theorem Sinks.lingers {move : Move} {w' : Walk} (h : Sinks s root move)
    (hsettle : settle s move = (.ok [], w')) : w'.Lingers s root := by
  cases move with
  | again p | failed failure p => cases hsettle
  | placed p =>
      obtain ⟨hnone, rfl⟩ := Prod.mk.inj hsettle
      exact .inl (h (Except.ok.inj hnone))
  | ended p =>
      obtain ⟨hnone, rfl⟩ := Prod.mk.inj hsettle
      have hnone := Except.ok.inj hnone
      exact .inr ⟨current_finish p, h (finish_eq_nil hnone).1 hnone⟩

/-- A walk without children passes a leaf. -/
theorem LingersOn.pass {w' : Walk} (h : w.LingersOn s root m) (hs : s.Built)
    (hmove : w.moveOn s m = (.ok [], w')) : w'.Lingers s root := by
  have hending := ending_closeItem hs w.outer m w h.unfed h.rest h.unmissed
  generalize heq : closeItem s w.outer m w = r at hending
  cases hending with
  | @ends w₁ hempty =>
      rw [moveOn_of_none heq] at hmove
      have hsinks : Sinks s root (.ended ⟨w₁, none, []⟩) := fun _ _ => hempty
      exact hsinks.lingers hmove
  | goesOn hw hunmissed =>
      rw [moveOn_of_some heq] at hmove
      exact (sinks_run hs fun _ => ⟨hw, hunmissed⟩).lingers hmove
  | misses =>
      rw [moveOn_of_some heq] at hmove
      exact (sinks_run hs fun hnone => absurd hnone (List.cons_ne_nil _ _)).lingers hmove

theorem Finds.lingers {bound : Nat} (h : Finds s root bound w) : w.Lingers s root := by
  cases h with
  | @leaf m hm hunskipped =>
      exact .inl ⟨m, hm.current, hm.childless.unfed, hm.rest, hunskipped.unmissed⟩
  | nothing hended hempty => exact .inr ⟨hended, hempty⟩

/-- Walks without children keep to groups that can be empty. -/
theorem kept_lingers (hs : s.Built) : Walk.Kept s fun w names => names = [] → w.Lingers s root where
  take _ _ _ _ hnone := absurd hnone (by simp)
  pass hlingers hcurrent hadvance hnone := by
    rcases hlingers hnone with ⟨m, hm⟩ | ⟨hended, -⟩
    · obtain rfl := Option.some.inj (hm.current.symm.trans hcurrent)
      rw [advance_pass hcurrent] at hadvance
      exact hm.pass hs hadvance
    · cases hended.symm.trans hcurrent

end Walk

namespace Schema

variable {s : Schema} {root : GroupId}

/-- A content without children is accepted only of a group that can be empty. -/
theorem Built.isEmptiable_of_issues (hs : s.Built)
    (hdepth : s.isWithin s.limits.maxModelDepth root = true) (h : s.issues root [] = .ok []) :
    s.isEmptiable (.group root) = true := by
  have hstart : ∀ {w : Walk}, Walk.start s root s.version = .ok w → w.Lingers s root := by
    intro w hw
    obtain ⟨w', bound, hw', -, hfinds⟩ := Walk.finds_start hs hdepth
    obtain rfl := Except.ok.inj (hw'.symm.trans hw)
    exact hfinds.lingers
  obtain ⟨w, hlingers, hended⟩ :=
    inv_of_issues_eq_nil (fun hw _ => hstart hw) (Walk.kept_lingers hs) h
  rcases hlingers rfl with ⟨m, hm⟩ | ⟨-, hempty⟩
  · cases hended.symm.trans hm.current
  · exact hempty

end Schema

end Conform
