import Conform.Proofs.Model.Ledger
/-!
# Tallies and children

Every pace keeps the balance between what a walk has counted and the children it was told of. So no
tally of a walk ever exceeds the number of children, but for the one occurrence of an `all` group.
-/

namespace Conform

namespace Walk

/-- No tally is more than the children, or than one. -/
def Capped (w : Walk) (n : Nat) : Prop := ∀ m, w.counts.reach w.ceilings m ≤ max 1 n

/-- A walk in a member of the innermost group. -/
structure Busy (s : Schema) (m : Member) (w : Walk) (n : Nat) : Prop where
  paid : ∃ i j, Ledger s w.root w.counts w.ceilings w.here.group w.outer i ∧
    Midway s w.root w.counts w.ceilings m w.here j ∧ i + j + w.counts.reach w.ceilings m ≤ n
  isOpen : IsOpen s w.counts w.ceilings w.here.group
  tidy : Tidy s w.counts w.ceilings (some m)
  capped : w.Capped n

/-- A walk between two members of the innermost group. -/
structure Searching (s : Schema) (w : Walk) (n : Nat) : Prop where
  paid : ∃ i j, Ledger s w.root w.counts w.ceilings w.here.group w.outer i ∧
    Upcoming s w.root w.counts w.ceilings w.here j ∧ i + j ≤ n
  tidy : Tidy s w.counts w.ceilings none
  capped : w.Capped n

/-- A walk in an `all` group, which is the root group. -/
structure Loose (s : Schema) (w : Walk) (n : Nat) : Prop where
  outer : w.outer = []
  compositor : (s.group w.here.group).compositor = .all
  leaf : ∀ m ∈ w.current, m.isGroup = false
  count_le : ∀ m, m.isGroup = false → w.counts.count m ≤ n
  group_le : ∀ g, w.counts.count (.group g) ≤ 1
  ceiling_eq_zero : ∀ m, w.ceilings.count m = 0

/-- What is counted is paid, wherever a walk is. -/
inductive Balanced (s : Schema) : Point → Prop
  | waiting {w : Walk} {m : Member} {n : Nat} : w.current = some m → m.isGroup = false →
      w.Busy s m n → Balanced s ⟨.waiting, w, n⟩
  | closing {w : Walk} {m : Member} {n : Nat} : w.Busy s m n → Balanced s ⟨.closing m, w, n⟩
  | looking {w : Walk} {n : Nat} : w.Searching s n → Balanced s ⟨.looking, w, n⟩
  | ended {w : Walk} {n : Nat} : w.Capped n → Balanced s ⟨.ended, w, n⟩
  | loose {q : Point} : q.walk.Loose s q.children → Balanced s q

variable {s : Schema} {w w' : Walk} {m : Member} {g : GroupId} {f : Frame} {outer : List Frame}
  {counts' ceilings' : Tally} {i k n : Nat}

theorem Capped.mono {n' : Nat} (h : w.Capped n) (hle : n ≤ n') : w.Capped n' :=
  fun m => (h m).trans (max_le_max_left 1 hle)

/-! ## Members that end -/

namespace Busy

theorem ne_all (h : w.Busy s m n) : (s.group w.here.group).compositor ≠ .all := by
  obtain ⟨_, _, -, hmidway, -⟩ := h.paid
  exact hmidway.ne_all

theorem mem (h : w.Busy s m n) : m ∈ (s.group w.here.group).members := by
  obtain ⟨_, _, -, hmidway, -⟩ := h.paid
  exact hmidway.mem

theorem tidy_off (h : w.Busy s m n) (hs : s.Built)
    (hsequence : (s.group w.here.group).compositor = .sequence) :
    Tidy s w.counts w.ceilings none :=
  h.tidy.off_sequence hs hsequence h.mem

/-- A child is counted, and pays for itself. -/
theorem take (h : w.Busy s m n) (hs : s.Built) (hleaf : m.isGroup = false) :
    (w.take m).Busy s m (n + 1) := by
  obtain ⟨i, j, hledger, hmidway, hle⟩ := h.paid
  have hcount : (w.take m).counts.count m = w.counts.count m + 1 := by simp [Walk.take]
  have hother : ∀ x, x ≠ m → (w.take m).counts.count x = w.counts.count x ∧
      (w.take m).ceilings.count x = w.ceilings.count x := by
    intro x hx
    simp [Walk.take, hx]
  have hgroup : ∀ g, Member.group g ≠ m := by
    rintro g rfl
    cases hleaf
  have hreach : (w.take m).counts.reach (w.take m).ceilings m ≤
      w.counts.reach w.ceilings m + 1 := by
    rw [Tally.reach, hcount]
    change max (w.counts.count m + 1) (w.ceilings.count m) ≤ _
    unfold Tally.reach
    omega
  have hmatched : Midway s w.root (w.take m).counts w.ceilings m { w.here with matched := true }
      j := by
    have hkept := hmidway.congr hs (fun x _ hx => hother x hx) fun _ hpos => by omega
    cases hkept with
    | choice hchoice hmem hrest => exact .choice hchoice hmem hrest
    | sequence hsequence hmembers hpaid =>
        exact .sequence hsequence hmembers hpaid fun _ => .inl ⟨hleaf, by omega⟩
  constructor
  · refine ⟨i, j, hledger.keep hs fun x hx => hother x ?_, hmatched, by omega⟩
    rintro rfl
    exact hx h.mem
  · exact h.isOpen.congr (hother _ (hgroup _)).1 (hother _ (hgroup _)).2
  · refine ⟨h.tidy.ceiling_eq_zero, fun g x hchoice hx hxleaf hne => ?_⟩
    rw [(hother x fun heq => hne (by rw [heq])).1]
    exact h.tidy.count_eq_zero g x hchoice hx hxleaf hne
  · intro x
    by_cases hx : x = m
    · subst hx
      omega
    · rw [Tally.reach_congr (hother x hx).1 (hother x hx).2]
      exact h.capped.mono (Nat.le_succ n) x

/-- Repetitions of the innermost group are counted, and paid by its members. -/
theorem counted (h : w.Busy s m n) (hs : s.Built)
    (hledger : Ledger s w.root w.counts w.ceilings w.here.group w.outer i) (hle : i + k ≤ n)
    (hf : f.group = w.here.group) (hupcoming : Upcoming s w.root counts' ceilings' f 0)
    (hsame : ∀ x, x ≠ w.hereMember → ceilings'.count x = w.ceilings.count x ∧
      (counts'.count x = w.counts.count x ∨
        x ∈ (s.group w.here.group).members ∧ counts'.count x = 0))
    (hmore : counts'.reach ceilings' w.hereMember ≤ w.counts.reach w.ceilings w.hereMember + k)
    (hoff : counts'.count m = 0 ∨ (s.group w.here.group).compositor = .sequence) :
    Searching s ⟨w.root, w.version, f, w.outer, counts', ceilings', w.current⟩ n := by
  have hleaf : ∀ x, x.isGroup = false → x ≠ w.hereMember := by
    rintro x hx rfl
    cases hx
  have hpaid : Ledger s w.root counts' ceilings' f.group w.outer (i + k) := by
    rw [hf]
    refine hledger.pay hs (fun x hx hout => ?_) hmore
    exact ⟨((hsame x hx).2.resolve_right fun hin => hout hin.1), (hsame x hx).1⟩
  constructor
  · exact ⟨i + k, 0, hpaid, hupcoming, hle⟩
  · have hmono : ∀ {current : Option Member}, Tidy s w.counts w.ceilings current →
        Tidy s counts' ceilings' current := fun htidy => htidy.mono
      (fun x hx => (hsame x (hleaf x hx)).2.imp_right And.right)
      fun x hx => (hsame x (hleaf x hx)).1
    rcases hoff with hzero | hsequence
    · exact (hmono h.tidy).off hzero
    · exact hmono (h.tidy_off hs hsequence)
  · intro x
    by_cases hx : x = w.hereMember
    · subst hx
      have hreach := hpaid.reach_le
      rw [hf] at hreach
      change counts'.reach ceilings' (.group w.here.group) ≤ _
      omega
    · refine le_trans ?_ (h.capped x)
      obtain ⟨hceiling, hcount⟩ := hsame x hx
      change max (counts'.count x) (ceilings'.count x) ≤ max (w.counts.count x) (w.ceilings.count x)
      rcases hcount with hcount | ⟨-, hcount⟩ <;> omega

theorem closeChoice (h : w.Busy s m n) (hs : s.Built)
    (hchoice : (s.group w.here.group).compositor = .choice) :
    (w.closeInChoice s m).2.Searching s n := by
  obtain ⟨i, j, hledger, hmidway, hle⟩ := h.paid
  rcases Nat.eq_zero_or_pos (w.count m) with hzero | hpos
  · rw [closeInChoice_zero hzero]
    refine ⟨⟨i, 0, hledger, ?_, by omega⟩, h.tidy.off hzero, h.capped⟩
    cases hmidway with
    | choice _ _ hrest => exact .choice hchoice hrest
    | sequence hsequence =>
        rw [hsequence] at hchoice
        cases hchoice
  · rw [closeInChoice_of_pos hpos]
    have hne : w.hereMember ≠ m := by
      rintro rfl
      exact hs.forest.ne_of_mem h.mem rfl
    have hleast : w.leastInChoice s m ≤ w.counts.reach w.ceilings m := leastInChoice_le hpos
    have hgreatest : w.greatest s m ≤ w.counts.reach w.ceilings m := greatest_le hpos
    refine h.counted hs hledger (k := w.counts.reach w.ceilings m) (by omega) rfl
      (upcoming_items h.ne_all _) (fun x hx => ?_) ?_ (.inl (by simp))
    · by_cases hxm : x = m
      · subst hxm
        simp [hx, h.mem]
      · simp [hx, hxm]
    · simp only [Tally.reach, Tally.count_set, Tally.count_add, hne, if_true, if_false]
      simp only [Tally.reach] at hleast hgreatest
      omega

/-- A member ends in a sequence in which something has matched. -/
theorem row (h : w.Busy s m n) (hsequence : (s.group w.here.group).compositor = .sequence)
    (hcounted : w.here.matched = true ∨ 0 < w.count m) :
    ∃ i j done, Ledger s w.root w.counts w.ceilings w.here.group w.outer i ∧
      (s.group w.here.group).members = done ++ m :: w.here.rest ∧
      PaidOff s w.root w.counts w.ceilings w.here.group (done ++ [m]) j ∧
      (∃ x ∈ done ++ [m], 0 < w.counts.count x) ∧ i + j ≤ n := by
  obtain ⟨i, j, hledger, hmidway, hle⟩ := h.paid
  cases hmidway with
  | choice hchoice =>
      rw [hsequence] at hchoice
      cases hchoice
  | @sequence done _ hmembers hpaid hmatched =>
      have hsome : ∃ x ∈ done ++ [m], 0 < w.counts.count x := by
        rcases hcounted with htrue | hpos
        · rcases hmatched htrue with ⟨-, hpos⟩ | ⟨x, hx, hpos⟩
          · exact ⟨m, by simp, hpos⟩
          · exact ⟨x, by simp [hx], hpos⟩
        · exact ⟨m, by simp, hpos⟩
      refine ⟨i, _, done, hledger, hmembers, hpaid.snoc fun hzero hnone => ?_, hsome,
        (Nat.add_assoc ..).ge.trans hle⟩
      obtain ⟨x, hx, hpos⟩ := hsome
      rcases List.mem_append.1 hx with hx | hx
      · have hxzero := hnone x hx
        omega
      · rw [List.mem_singleton.1 hx] at hpos
        omega

/-- A repetition of a sequence is paid by the first member that has occurred in it. -/
theorem countSequence (h : w.Busy s m n) (hs : s.Built)
    (hsequence : (s.group w.here.group).compositor = .sequence)
    (hledger : Ledger s w.root w.counts w.ceilings w.here.group w.outer i) (hle : i + k ≤ n)
    (hpaid : ∀ x ∈ (s.group w.here.group).members, w.counts.reach w.ceilings x ≤ k)
    (hsome : ∃ x ∈ (s.group w.here.group).members, 0 < w.counts.count x)
    (hrest : w.here.rest = []) :
    (Walk.countSequence s { w with here := { w.here with matched := true } }).Searching s n := by
  have hcomplete : ∀ counts' ceilings', Upcoming s w.root counts' ceilings'
      { w.here with matched := true } 0 := fun _ _ => .complete hsequence hrest rfl
  have hsame : ∀ a b x, x ≠ w.hereMember →
      (w.ceilings.add w.hereMember b).count x = w.ceilings.count x ∧
        ((w.counts.add w.hereMember a).count x = w.counts.count x ∨
          x ∈ (s.group w.here.group).members ∧ (w.counts.add w.hereMember a).count x = 0) := by
    intro a b x hx
    simp [hx]
  have hmem : ∀ {before after : List Member} {x : Member},
      (s.group w.here.group).members = before ++ x :: after →
        w.counts.reach w.ceilings x ≤ k := by
    intro before after x hx
    refine hpaid x ?_
    rw [hx]
    simp
  have hrow := countsRow_countSequence s { w with here := { w.here with matched := true } }
  generalize Walk.countSequence s { w with here := { w.here with matched := true } } = w' at hrow
  cases hrow with
  | nothing hnone =>
      obtain ⟨x, hx, hpos⟩ := hsome
      have hzero : w.counts.count x = 0 := hnone x hx
      omega
  | once hx _ hpos _ =>
      have hone : 1 ≤ w.counts.reach w.ceilings _ := le_trans hpos (w.count_le_reach _)
      have hmore := hone.trans (hmem hx)
      refine h.counted hs hledger hle rfl (hcomplete _ _)
        (fun x hx => ⟨rfl, (hsame 1 0 x hx).2⟩) ?_ (.inr hsequence)
      change max ((w.counts.add w.hereMember 1).count w.hereMember) _ ≤ _
      simp only [Tally.reach, Tally.count_add, if_true]
      omega
  | @several _ _ y hy _ hpos _ _ =>
      have hleast : leastInSequence s w y ≤ k := (leastInSequence_le hpos).trans (hmem hy)
      have hgreatest : greatest s w y ≤ k := (greatest_le hpos).trans (hmem hy)
      refine h.counted hs hledger hle rfl (hcomplete _ _) (hsame _ _) ?_ (.inr hsequence)
      change max ((w.counts.add w.hereMember (w.leastInSequence s y)).count w.hereMember)
        ((w.ceilings.add w.hereMember (w.greatest s y)).count w.hereMember) ≤ _
      simp only [Tally.reach, Tally.count_add, if_true]
      omega

theorem closeSequence (h : w.Busy s m n) (hs : s.Built)
    (hsequence : (s.group w.here.group).compositor = .sequence)
    (hcounted : w.here.matched = true ∨ 0 < w.count m) :
    (closeInSequence s { w with here := { w.here with matched := true } } m).2.Searching s n := by
  obtain ⟨i, j, done, hledger, hmembers, hrow, hsome, hle⟩ := h.row hsequence hcounted
  rw [closeInSequence_of_split (w := { w with here := { w.here with matched := true } }) hs
    hmembers]
  have hsplit : (s.group w.here.group).members = (done ++ [m]) ++ w.here.rest := by
    rw [hmembers, List.append_assoc, List.singleton_append]
  split
  · rename_i hrest
    change w.here.rest = [] at hrest
    have hall : (s.group w.here.group).members = done ++ [m] := by
      rw [hsplit, hrest, List.append_nil]
    refine h.countSequence hs hsequence hledger hle ?_ ?_ hrest
    · rw [hall]
      exact hrow.reach_le
    · rw [hall]
      exact hsome
  · exact ⟨⟨i, j, hledger, .sequence hsequence hsplit hrow fun _ => hsome, hle⟩,
      h.tidy_off hs hsequence, h.capped⟩

/-- A walk passes over a member in a sequence in which nothing has matched. -/
theorem skip (h : w.Busy s m n) (hs : s.Built)
    (hsequence : (s.group w.here.group).compositor = .sequence) (hmatched : w.here.matched = false)
    (hlack : s.MayLack w.root w.here.group m) : w.Searching s n := by
  obtain ⟨i, j, hledger, hmidway, hle⟩ := h.paid
  cases hmidway with
  | choice hchoice =>
      rw [hsequence] at hchoice
      cases hchoice
  | @sequence done _ hmembers hpaid _ =>
      rw [← List.singleton_append, ← List.append_assoc] at hmembers
      refine ⟨⟨i, _, hledger, .sequence hsequence hmembers (hpaid.snoc fun _ _ => hlack) ?_,
        by omega⟩, h.tidy_off hs hsequence, h.capped⟩
      rw [hmatched]
      nofun

end Busy

/-- The innermost group ends. -/
theorem balanced_ascend (hledger : Ledger s w.root w.counts w.ceilings w.here.group w.outer k)
    (hle : k ≤ n) (htidy : Tidy s w.counts w.ceilings none) (hcapped : w.Capped n) :
    Balanced s (w.ascend n) := by
  unfold ascend
  cases houter : w.outer with
  | nil => exact .ended hcapped
  | cons f outer =>
      rw [houter] at hledger
      obtain ⟨i, j, haround, hopen, hmidway, hpaid⟩ := hledger.enclosing
      exact .closing ⟨⟨i, j, haround, hmidway, hpaid.trans hle⟩, hopen, htidy.on _, hcapped⟩

/-! ## Members that begin -/

namespace Searching

theorem ne_all (h : w.Searching s n) : (s.group w.here.group).compositor ≠ .all := by
  obtain ⟨_, _, -, hupcoming, -⟩ := h.paid
  exact hupcoming.ne_all

theorem ascend (h : w.Searching s n) : Balanced s (w.ascend n) := by
  obtain ⟨i, j, hledger, -, hle⟩ := h.paid
  exact balanced_ascend hledger (by omega) h.tidy h.capped

/-- The next member begins, with its tallies at zero. -/
theorem begins (h : w.Searching s n) (hs : s.Built) (hover : w.isGroupOver s = false)
    (hnext : w.nextItem s = (some m, w')) (hzero : counts'.reach ceilings' m = 0)
    (hsame : ∀ x, x ≠ m →
      counts'.count x = w.counts.count x ∧ ceilings'.count x = w.ceilings.count x) :
    ∃ i j rest, w' = { w with here := { w.here with rest } } ∧
      Ledger s w.root counts' ceilings' w.here.group w.outer i ∧
      IsOpen s counts' ceilings' w.here.group ∧
      Midway s w.root counts' ceilings' m { w.here with rest } j ∧ i + j ≤ n := by
  obtain ⟨i, j, hledger, hupcoming, hle⟩ := h.paid
  have hopen := isGroupOver_eq_false_iff.1 hover
  rw [nextItem_of_ne_all h.ne_all] at hnext
  split at hnext <;> cases hnext
  rename_i rest hrest
  have hmidway := hupcoming.begins hs hopen.max_ne_zero hrest hsame
  have hhere : Member.group w.here.group ≠ m := by
    rintro rfl
    exact hs.forest.ne_of_mem hmidway.mem rfl
  refine ⟨i, j, rest, rfl, hledger.keep hs fun x hx => hsame x ?_, ?_, hmidway, hle⟩
  · rintro rfl
    exact hx hmidway.mem
  · exact hopen.congr (hsame _ hhere).1 (hsame _ hhere).2

/-- A leaf has not occurred when the walk comes to stand on it. -/
theorem count_standOn (h : w.Searching s n) (hs : s.Built) (hover : w.isGroupOver s = false)
    (hnext : w.nextItem s = (some m, w')) (hleaf : m.isGroup = false) :
    (w'.standOn s m).counts.count m = 0 ∧
      ∀ x, x ≠ m → (w'.standOn s m).counts.count x = w.counts.count x := by
  have hzero : (w.counts.set m 0).reach w.ceilings m = 0 := by
    simp [Tally.reach, h.tidy.ceiling_eq_zero m hleaf]
  obtain ⟨_, _, rest, rfl, -, -, hmidway, -⟩ :=
    h.begins hs hover hnext hzero fun x hx => ⟨by simp [hx], rfl⟩
  unfold standOn
  dsimp only
  split
  · exact ⟨by simp, fun x hx => by simp [hx]⟩
  · rename_i hne
    have hchoice : (s.group w.here.group).compositor = .choice := by
      cases hcomp : (s.group w.here.group).compositor with
      | choice => rfl
      | all => exact absurd hcomp h.ne_all
      | sequence => exact absurd hcomp hne
    exact ⟨h.tidy.count_eq_zero _ m hchoice hmidway.mem hleaf (Option.some_ne_none m).symm,
      fun _ _ => rfl⟩

/-- The walk comes to stand on a leaf. -/
theorem stand (h : w.Searching s n) (hs : s.Built) (hover : w.isGroupOver s = false)
    (hnext : w.nextItem s = (some m, w')) (hleaf : m.isGroup = false) :
    (w'.standOn s m).Busy s m n := by
  obtain ⟨hzero, hsame⟩ := h.count_standOn hs hover hnext hleaf
  have hless : ∀ x, (w'.standOn s m).counts.count x = w.counts.count x ∨
      (w'.standOn s m).counts.count x = 0 := by
    intro x
    by_cases hx : x = m
    · subst hx
      exact .inr hzero
    · exact .inl (hsame x hx)
  have hreach : (w'.standOn s m).counts.reach w.ceilings m = 0 := by
    rw [Tally.reach, hzero, h.tidy.ceiling_eq_zero m hleaf, Nat.max_self]
  obtain ⟨i, j, rest, rfl, hledger, hopen, hmidway, hle⟩ :=
    h.begins hs hover hnext hreach fun x hx => ⟨hsame x hx, rfl⟩
  refine ⟨⟨i, j, hledger, hmidway, ?_⟩, hopen,
    (h.tidy.mono (fun x _ => hless x) fun _ _ => rfl).on m, fun x => ?_⟩
  · exact (Nat.add_le_add_left hreach.le (i + j)).trans hle
  · refine le_trans ?_ (h.capped x)
    rcases hless x with hx | hx
    · exact (Tally.reach_congr hx rfl).le
    · unfold Tally.reach
      rw [hx]
      exact max_le (Nat.zero_le _) (Nat.le_max_right _ _)

/-- A group is entered, and has occurred no more. -/
theorem enter {w'' : Walk} (h : w.Searching s n) (hs : s.Built) (hv : s.version = .v10)
    (hover : w.isGroupOver s = false) (hnext : w.nextItem s = (some (.group g), w'))
    (henter : w'.enter s g = .ok w'') : (w''.forget g).Searching s n := by
  have hsame : ∀ x, x ≠ .group g → (w.counts.set (.group g) 0).count x = w.counts.count x ∧
      (w.ceilings.set (.group g) 0).count x = w.ceilings.count x := by
    intro x hx
    simp [hx]
  have hzero : (w.counts.set (.group g) 0).reach (w.ceilings.set (.group g) 0) (.group g) = 0 := by
    simp [Tally.reach]
  obtain ⟨i, j, rest, rfl, hledger, hopen, hmidway, hle⟩ := h.begins hs hover hnext hzero hsame
  unfold Walk.enter at henter
  split at henter <;> cases henter
  have hleaf : ∀ x : Member, x.isGroup = false → x ≠ .group g := by
    rintro x hx rfl
    cases hx
  constructor
  · refine ⟨i + j, 0, .nested hledger hopen hmidway ?_, ?_, hle⟩
    · exact Nat.add_le_add_left hzero.le (i + j)
    · exact upcoming_items (hs.compositor_ne_all hv hmidway.mem) _
  · exact h.tidy.mono (fun x hx => .inl (hsame x (hleaf x hx)).1)
      fun x hx => (hsame x (hleaf x hx)).2
  · intro x
    by_cases hx : x = .group g
    · rw [hx]
      exact hzero.le.trans (Nat.zero_le _)
    · exact (Tally.reach_congr (hsame x hx).1 (hsame x hx).2).le.trans (h.capped x)

/-- A group in which something has matched begins anew. -/
theorem again (h : w.Searching s n) (hnext : w.nextItem s = (none, w')) :
    (w'.restartGroup s).Searching s n := by
  obtain ⟨rest, -, rfl⟩ := nextItem_suffix hnext
  obtain ⟨i, j, hledger, hupcoming, hle⟩ := h.paid
  exact ⟨⟨i, 0, hledger, upcoming_items h.ne_all _, by omega⟩, h.tidy, h.capped⟩

end Searching

/-! ## `all` groups -/

namespace Loose

theorem capped (h : w.Loose s n) : w.Capped n := by
  intro m
  rw [Tally.reach, h.ceiling_eq_zero, Nat.max_zero]
  cases m with
  | group g => exact (h.group_le g).trans (Nat.le_max_left _ _)
  | element e => exact (h.count_le _ rfl).trans (Nat.le_max_right _ _)
  | wildcard x => exact (h.count_le _ rfl).trans (Nat.le_max_right _ _)

/-- The place in the group does not matter. -/
theorem move (h : w.Loose s n) (rest : List Member) (matched : Bool) :
    Loose s { w with here := ⟨w.here.group, rest, matched⟩ } n :=
  ⟨h.outer, h.compositor, h.leaf, h.count_le, h.group_le, h.ceiling_eq_zero⟩

theorem next (h : w.Loose s n) {item : Option Member} (hnext : w.nextItem s = (item, w')) :
    w'.Loose s n := by
  obtain ⟨rest, -, rfl⟩ := nextItem_suffix hnext
  exact h.move rest _

theorem take (h : w.Loose s n) (hm : m ∈ w.current) : (w.take m).Loose s (n + 1) := by
  have hleaf := h.leaf m hm
  refine ⟨h.outer, h.compositor, h.leaf, fun x hx => ?_, fun g => ?_, h.ceiling_eq_zero⟩
  · have hle := h.count_le x hx
    have hcount := count_take w m x
    change (w.take m).count x ≤ n + 1
    rw [hcount]
    split
    · rename_i hxm
      subst hxm
      exact Nat.succ_le_succ hle
    · exact hle.trans (Nat.le_succ n)
  · have hcount := count_take w m (.group g)
    rw [if_neg (by rintro rfl; cases hleaf)] at hcount
    exact hcount.trans_le (h.group_le g)

theorem markOnce (h : w.Loose s n) : w.markOnce.Loose s n := by
  refine ⟨h.outer, h.compositor, h.leaf, fun x hx => ?_, fun g => ?_, h.ceiling_eq_zero⟩
  · have hne : x ≠ w.hereMember := by
      rintro rfl
      cases hx
    simpa [Walk.markOnce, hne] using h.count_le x hx
  · have hle := h.group_le g
    simp only [Walk.markOnce, Tally.count_set]
    split
    · exact le_rfl
    · exact hle

theorem ascend (h : w.Loose s n) : (w.ascend n).walk.Loose s (w.ascend n).children := by
  unfold Walk.ascend
  rw [h.outer]
  exact h

/-- The next member is a leaf. -/
theorem stand (h : w.Loose s n) (hleaf : m.isGroup = false) : (w.standOn s m).Loose s n := by
  have hcounts : (w.standOn s m).counts = w.counts := by simp [standOn, h.compositor]
  refine ⟨h.outer, h.compositor, fun x hx => ?_, ?_, ?_, h.ceiling_eq_zero⟩
  · rw [← Option.some.inj hx]
    exact hleaf
  · rw [hcounts]
    exact h.count_le
  · rw [hcounts]
    exact h.group_le

/-- No group is looked for. -/
theorem nextItem_ne_group (h : w.Loose s n) : w.nextItem s ≠ (some (.group g), w') := by
  intro hnext
  have hpassed := next_nextItem s w
  rw [hnext] at hpassed
  cases hpassed with
  | some _ _ hgroup => simp [isPassed, h.compositor, Member.isGroup] at hgroup

theorem pace {q : Point} {phase : Phase} (h : w.Loose s n) (hpace : Pace s ⟨phase, w, n⟩ q) :
    q.walk.Loose s q.children := by
  have hall := h.compositor
  cases hpace with
  | stay hm _ => exact h.take hm
  | fill _ hne _ => exact absurd hall hne
  | tick hm _ => exact (h.take hm).move _ _
  | pass _ => exact h
  | closeAll _ => exact h
  | closeChoice hchoice => cases hall.symm.trans hchoice
  | closeSequence hsequence _ => cases hall.symm.trans hsequence
  | skip hsequence _ _ _ => cases hall.symm.trans hsequence
  | giveUp hsequence _ _ _ _ => cases hall.symm.trans hsequence
  | miss hsequence _ _ _ _ => cases hall.symm.trans hsequence
  | full _ => exact h.ascend
  | stand _ hnext hleaf => exact (h.next hnext).stand hleaf
  | enter _ hnext _ => exact absurd hnext h.nextItem_ne_group
  | tooDeep hnext _ => exact absurd hnext h.nextItem_ne_group
  | unmatched _ _ _ hne => exact absurd hall hne
  | unmatchedAll hnext _ _ =>
      split
      · exact (h.next hnext).markOnce.ascend
      · exact (h.next hnext).ascend
  | again _ hnext _ => exact (h.next hnext).move _ _
  | @short _ w' _ hnext _ _ _ =>
      have hkept := h.next hnext
      have hleave : w'.leave? = none := by rw [leave?, hkept.outer]
      rw [hleave]
      exact hkept
  | fulfilled hnext _ _ _ => exact (h.next hnext).markOnce
  | fulfilledLast hnext _ _ _ => exact (h.next hnext).markOnce.ascend
  | halt =>
      exact ⟨h.outer, hall, fun x hx => absurd hx (Option.not_mem_none x), h.count_le,
        h.group_le, h.ceiling_eq_zero⟩
  | ignore _ =>
      exact ⟨h.outer, hall, h.leaf, fun x hx => (h.count_le x hx).trans (Nat.le_succ _),
        h.group_le, h.ceiling_eq_zero⟩

end Loose

/-! ## Paces -/

/-- Every pace keeps the balance. -/
theorem Pace.balanced (hs : s.Built) (hv : s.version = .v10) {p q : Point} (hpace : Pace s p q)
    (hp : Balanced s p) : Balanced s q := by
  cases hp with
  | loose hloose => exact .loose (hloose.pace hpace)
  | waiting hm hleaf h =>
      cases hpace with
      | stay hm' _ =>
          obtain rfl := Option.some.inj (hm.symm.trans hm')
          exact .waiting hm' hleaf (h.take hs hleaf)
      | fill hm' _ _ =>
          obtain rfl := Option.some.inj (hm.symm.trans hm')
          exact .closing (h.take hs hleaf)
      | tick hm' hall => exact absurd hall h.ne_all
      | pass hm' =>
          obtain rfl := Option.some.inj (hm.symm.trans hm')
          exact .closing h
  | closing h =>
      cases hpace with
      | closeAll hall => exact absurd hall h.ne_all
      | closeChoice hchoice => exact .looking (h.closeChoice hs hchoice)
      | closeSequence hsequence hcounted =>
          exact .looking (h.closeSequence hs hsequence hcounted)
      | skip hsequence hmatched _ hempty =>
          exact .looking (h.skip hs hsequence hmatched (.inl hempty))
      | miss hsequence hmatched _ houter hmin =>
          obtain ⟨_, _, hledger, -⟩ := h.paid
          rw [houter] at hledger
          exact .looking (h.skip hs hsequence hmatched (.inr ⟨hledger.eq_root, by omega⟩))
      | giveUp hsequence _ _ _ _ =>
          obtain ⟨_, _, hledger, -, hle⟩ := h.paid
          exact balanced_ascend hledger (by omega) (h.tidy_off hs hsequence) h.capped
  | looking h =>
      cases hpace with
      | full _ => exact h.ascend
      | stand hover hnext hleaf => exact .waiting rfl hleaf (h.stand hs hover hnext hleaf)
      | enter hover hnext henter => exact .looking (h.enter hs hv hover hnext henter)
      | tooDeep hnext _ =>
          obtain ⟨rest, -, rfl⟩ := nextItem_suffix hnext
          exact .ended h.capped
      | unmatched _ hnext _ _ =>
          obtain ⟨rest, -, rfl⟩ := nextItem_suffix hnext
          obtain ⟨_, _, hledger, -, hle⟩ := h.paid
          exact balanced_ascend hledger (by omega) h.tidy h.capped
      | unmatchedAll _ _ hall => exact absurd hall h.ne_all
      | again _ hnext _ => exact .looking (h.again hnext)
      | short _ _ hall _ => exact absurd hall h.ne_all
      | fulfilled _ _ hall _ => exact absurd hall h.ne_all
      | fulfilledLast _ _ hall _ => exact absurd hall h.ne_all
  | ended h =>
      cases hpace with
      | halt => exact .ended h
      | ignore _ => exact .ended (h.mono (Nat.le_succ _))

theorem Balanced.capped {q : Point} (h : Balanced s q) : q.walk.Capped q.children := by
  cases h with
  | waiting _ _ h => exact h.capped
  | closing h => exact h.capped
  | looking h => exact h.capped
  | ended h => exact h
  | loose h => exact h.capped

/-! ## Starting -/

/-- The groups around a group in which a walk looks for its first leaf. What it has passed can be
empty. -/
inductive Opening (s : Schema) (root : GroupId) : GroupId → List Frame → Prop
  | root : Opening s root root []
  | nested {g : GroupId} {f : Frame} {outer : List Frame} {done : List Member} :
      Opening s root f.group outer → (s.group f.group).compositor ≠ .all →
      (s.group f.group).occurs.max ≠ some 0 → f.matched = false →
      (s.group f.group).members = done ++ .group g :: f.rest →
      (∀ x ∈ done, s.isEmptiable x = true) → Opening s root g (f :: outer)

/-- A walk that looks for its first leaf. -/
structure Opens (s : Schema) (w : Walk) : Prop where
  opening : Opening s w.root w.here.group w.outer
  compositor : (s.group w.here.group).compositor ≠ .all
  matched : w.here.matched = false
  rest : ((s.group w.here.group).occurs.max = some 0 ∧ w.here.rest = []) ∨
    ((s.group w.here.group).occurs.max ≠ some 0 ∧ ∃ done,
      (s.group w.here.group).members = done ++ w.here.rest ∧ ∀ x ∈ done, s.isEmptiable x = true)
  counts : w.counts = Tally.zero
  ceilings : w.ceilings = Tally.zero
  current : w.current = none

theorem isOpen_zero (hmax : (s.group g).occurs.max ≠ some 0) :
    IsOpen s Tally.zero Tally.zero g :=
  fun _ hn => Occurs.max_pos hmax hn

theorem midway_zero {root : GroupId} {done : List Member}
    (hne : (s.group f.group).compositor ≠ .all) (hmatched : f.matched = false)
    (hmembers : (s.group f.group).members = done ++ m :: f.rest)
    (hdone : ∀ x ∈ done, s.isEmptiable x = true) :
    Midway s root Tally.zero Tally.zero m f 0 := by
  cases hcomp : (s.group f.group).compositor with
  | all => exact absurd hcomp hne
  | choice =>
      refine .choice hcomp ?_ fun x hx => ?_
      · rw [hmembers]
        simp
      · rw [hmembers]
        simp [hx]
  | sequence =>
      refine .sequence hcomp hmembers ⟨fun x _ => by simp [Tally.reach], ?_⟩ ?_
      · intro before after x hsplit _ _
        exact .inl (hdone x (by simp [hsplit]))
      · simp [hmatched]

theorem Opening.ledger {root : GroupId} (h : Opening s root g outer) :
    Ledger s root Tally.zero Tally.zero g outer 0 := by
  induction h with
  | root => exact .root (by simp [Tally.reach])
  | nested _ hne hmax hmatched hmembers hdone ih =>
      exact .nested ih (isOpen_zero hmax) (midway_zero hne hmatched hmembers hdone)
        (by simp [Tally.reach])

/-- What is known of the group around a group. -/
theorem Opening.enclosing {root : GroupId} (h : Opening s root g (f :: outer)) :
    ∃ done, Opening s root f.group outer ∧ (s.group f.group).compositor ≠ .all ∧
      (s.group f.group).occurs.max ≠ some 0 ∧ f.matched = false ∧
      (s.group f.group).members = done ++ .group g :: f.rest ∧
      ∀ x ∈ done, s.isEmptiable x = true := by
  cases h with
  | nested hopening hne hmax hmatched hmembers hdone =>
      exact ⟨_, hopening, hne, hmax, hmatched, hmembers, hdone⟩

theorem tidy_zero (current : Option Member) : Tidy s Tally.zero Tally.zero current :=
  ⟨fun _ _ => rfl, fun _ _ _ _ _ _ => rfl⟩

namespace Opens

theorem of_items {v : Version} (hopening : Opening s w.root g outer)
    (hne : (s.group g).compositor ≠ .all) (hcounts : w.counts = Tally.zero)
    (hceilings : w.ceilings = Tally.zero) (hcurrent : w.current = none) :
    Opens s { w with here := ⟨g, items s v g, false⟩, outer } := by
  refine ⟨hopening, hne, rfl, ?_, hcounts, hceilings, hcurrent⟩
  by_cases hmax : (s.group g).occurs.max = some 0
  · exact .inl ⟨hmax, by simp [items, Occurs.isEmpty, hmax]⟩
  · exact .inr ⟨hmax, [], (items_of_ne_all hne hmax).symm, fun x hx => absurd hx List.not_mem_nil⟩

/-- A group without a further member can be empty. -/
theorem isEmptiable (h : w.Opens s) (hs : s.Built) (hrest : w.here.rest = []) :
    s.isEmptiable w.hereMember = true := by
  rcases h.rest with ⟨hmax, -⟩ | ⟨-, done, hmembers, hdone⟩
  · exact hs.isEmptiable_of_never (m := .group w.here.group) hmax
  · refine hs.isEmptiable_of_forall fun x hx => hdone x ?_
    rwa [hmembers, hrest, List.append_nil] at hx

/-- A member that can be empty is passed. -/
theorem pass (h : w.Opens s) {rest : List Member} (hrest : w.here.rest = m :: rest)
    (hm : s.isEmptiable m = true) : Opens s { w with here := { w.here with rest } } := by
  refine ⟨h.opening, h.compositor, h.matched, ?_, h.counts, h.ceilings, h.current⟩
  rcases h.rest with ⟨-, hnil⟩ | ⟨hmax, done, hmembers, hdone⟩
  · rw [hrest] at hnil
    cases hnil
  · refine .inr ⟨hmax, done ++ [m], ?_, fun x hx => ?_⟩
    · rw [hmembers, hrest, List.append_assoc, List.singleton_append]
    · rcases List.mem_append.1 hx with hx | hx
      · exact hdone x hx
      · rw [List.mem_singleton.1 hx]
        exact hm

/-- The innermost group is left, since it can be empty. -/
theorem leave (h : w.Opens s) (hs : s.Built) (hrest : w.here.rest = [])
    (houter : w.outer = f :: outer) : Opens s { w with here := f, outer } := by
  have hempty := h.isEmptiable hs hrest
  have hopening := h.opening
  rw [houter] at hopening
  obtain ⟨done, hopening, hne, hmax, hmatched, hmembers, hdone⟩ := hopening.enclosing
  refine ⟨hopening, hne, hmatched, .inr ⟨hmax, done ++ [w.hereMember], ?_, fun x hx => ?_⟩,
    h.counts, h.ceilings, h.current⟩
  · rw [hmembers, List.append_assoc, List.singleton_append]
    rfl
  · rcases List.mem_append.1 hx with hx | hx
    · exact hdone x hx
    · rw [List.mem_singleton.1 hx]
      exact hempty

theorem enter (h : w.Opens s) (hs : s.Built) (hv : s.version = .v10) {rest : List Member}
    (hrest : w.here.rest = .group g :: rest)
    (henter : Walk.enter s { w with here := { w.here with rest } } g = .ok w') : w'.Opens s := by
  unfold Walk.enter at henter
  split at henter <;> cases henter
  rcases h.rest with ⟨-, hnil⟩ | ⟨hmax, done, hmembers, hdone⟩
  · rw [hrest] at hnil
    cases hnil
  · rw [hrest] at hmembers
    have hopening : Opening s w.root g ({ w.here with rest } :: w.outer) :=
      .nested h.opening h.compositor hmax h.matched hmembers hdone
    refine of_items (w := w) hopening (hs.compositor_ne_all hv (g := w.here.group) ?_) h.counts
      h.ceilings h.current
    rw [hmembers]
    simp

theorem stand (h : w.Opens s) {rest : List Member} (hrest : w.here.rest = m :: rest) :
    Busy s m { w with here := { w.here with rest }, current := some m } 0 := by
  have hcounts := h.counts
  have hceilings := h.ceilings
  rcases h.rest with ⟨-, hnil⟩ | ⟨hmax, done, hmembers, hdone⟩
  · rw [hrest] at hnil
    cases hnil
  rw [hrest] at hmembers
  constructor
  · refine ⟨0, 0, ?_, ?_, ?_⟩
    · rw [hcounts, hceilings]
      exact h.opening.ledger
    · rw [hcounts, hceilings]
      exact midway_zero h.compositor h.matched hmembers hdone
    · rw [hcounts, hceilings]
      exact le_rfl
  · rw [hcounts, hceilings]
    exact isOpen_zero hmax
  · rw [hcounts, hceilings]
    exact tidy_zero _
  · intro x
    rw [hcounts, hceilings]
    exact Nat.zero_le _

end Opens

/-- The next member is the first one that is left. -/
theorem Opens.rest_of_nextItem (h : w.Opens s) {item : Option Member}
    (hnext : w.nextItem s = (item, w')) : ∃ rest, w.here.rest = item.toList ++ rest ∧
      w' = { w with here := { w.here with rest } } ∧ (item = none → rest = []) := by
  rw [nextItem_of_ne_all h.compositor] at hnext
  split at hnext <;> cases hnext
  · rename_i hrest
    exact ⟨[], hrest, rfl, fun _ => rfl⟩
  · rename_i rest hrest
    exact ⟨rest, hrest, rfl, nofun⟩

theorem Opens.of_none (h : w.Opens s) (hnext : w.nextItem s = (none, w')) :
    w'.Opens s ∧ w'.here.rest = [] := by
  obtain ⟨rest, hrest, rfl, hnone⟩ := h.rest_of_nextItem hnext
  obtain rfl := hnone rfl
  refine ⟨?_, rfl⟩
  have hsame : ({ w with here := { w.here with rest := [] } } : Walk) = w := by
    rw [Option.toList_none, List.nil_append] at hrest
    rw [← hrest]
  rw [hsame]
  exact h

theorem balanced_seekFirst (hs : s.Built) (hv : s.version = .v10) {fuel : Nat} (h : w.Opens s)
    (hseek : w.seekFirst s fuel = (.ok (), w')) : Balanced s (w'.point 0) := by
  refine seekFirst_induction (P := fun w => w.Opens s) (Q := fun w => Balanced s (w.point 0))
    (fun {w w'} h hnext _ => ?_) (fun h hnext hleave => ?_) (fun h hnext hnil => ?_)
    (fun h hnext henter => ?_) (fun h hnext hleaf => ?_) h hseek
  · obtain ⟨h', -⟩ := h.of_none hnext
    rw [point, h'.current]
    refine .ended fun x => ?_
    rw [h'.counts, h'.ceilings]
    exact Nat.zero_le _
  · obtain ⟨h', hrest⟩ := h.of_none hnext
    unfold leave? at hleave
    split at hleave <;> cases hleave
    rename_i houter
    exact h'.leave hs hrest houter
  · obtain ⟨rest, hrest, rfl, -⟩ := h.rest_of_nextItem hnext
    exact h.pass hrest (hs.isEmptiable_of_isVoid ⟨_, rfl, hnil⟩)
  · obtain ⟨rest, hrest, rfl, -⟩ := h.rest_of_nextItem hnext
    exact h.enter hs hv hrest henter
  · obtain ⟨rest, hrest, rfl, -⟩ := h.rest_of_nextItem hnext
    exact .waiting rfl hleaf (h.stand hrest)

theorem loose_clear {w : Walk} (hall : (s.group w.root).compositor = .all) :
    (w.clear s).Loose s 0 :=
  ⟨rfl, hall, nofun, fun _ _ => Nat.zero_le _, fun _ => Nat.zero_le _, fun _ => rfl⟩

theorem Loose.seekFirst {fuel : Nat} (h : w.Loose s n)
    (hseek : w.seekFirst s fuel = (.ok (), w')) : w'.Loose s n := by
  refine seekFirst_induction (P := fun w => w.Loose s n) (Q := fun w => w.Loose s n)
    (fun h hnext _ => h.next hnext) (fun h hnext hleave => ?_)
    (fun h hnext _ => absurd hnext h.nextItem_ne_group)
    (fun h hnext _ => absurd hnext h.nextItem_ne_group) (fun h hnext hleaf => ?_) h hseek
  · rw [leave?, (h.next hnext).outer] at hleave
    cases hleave
  · have hkept := h.next hnext
    exact ⟨hkept.outer, hkept.compositor, fun x hx => by cases hx; exact hleaf, hkept.count_le,
      hkept.group_le, hkept.ceiling_eq_zero⟩

theorem balanced_clear (w : Walk) : Balanced s ((w.clear s).point 0) :=
  .ended fun _ => Nat.zero_le _

/-- A walk that starts anew is balanced. -/
theorem balanced_restart (hs : s.Built) (hv : s.version = .v10) {fuel : Nat}
    (hseek : (w.clear s).seekFirst s fuel = (.ok (), w')) : Balanced s (w'.point 0) := by
  by_cases hall : (s.group w.root).compositor = .all
  · exact .loose ((loose_clear hall).seekFirst hseek)
  · exact balanced_seekFirst hs hv (Opens.of_items (w := w.clear s) .root hall rfl rfl rfl) hseek

/-- A walk is balanced between two operations, as long as no operation was stopped at the bound on
the depth of models. -/
theorem Course.balanced (hs : s.Built) (hv : s.version = .v10) (h : Course s w n) :
    Balanced s (w.point n) :=
  h.keep hs hv (fun hpace => hpace.balanced hs hv) balanced_clear
    fun _ _ => balanced_restart hs hv

/-! ## Words of 32 bits -/

/-- The numbers by which occurrences of a member are divided when it ends. -/
def divisors (s : Schema) (w : Walk) (m : Member) : List Nat :=
  [w.most s m, max 1 (s.occurs m).min.toNat]

theorem divisors_pos (h : 0 < w.count m) : ∀ d ∈ w.divisors s m, 0 < d := by
  have hmost : 0 < w.most s m := by
    unfold most
    split
    · split
      · exact h
      · rename_i k _ hk
        exact Nat.pos_of_ne_zero fun hzero => hk (UInt32.toNat_inj.1 hzero)
    · exact h
  exact List.forall_mem_cons.2 ⟨hmost, List.forall_mem_singleton.2 (by omega)⟩

/-- What a walk has counted, between its operations and in the middle of them, is no more than the
children since it was started, or one. It fits into 32 bits as long as the children do, and nothing
that is counted is ever divided by zero. -/
theorem tallies_le_children (hs : s.Built) (hv : s.version = .v10) (h : Course s w n) :
    (∀ q, Paces s (w.point n) q →
      (∀ m, q.walk.counts.count m ≤ max 1 q.children ∧
        q.walk.ceilings.count m ≤ max 1 q.children) ∧
      (q.children < 2 ^ 32 → ∀ m, q.walk.counts.count m < 2 ^ 32 ∧
        q.walk.ceilings.count m < 2 ^ 32) ∧
      ∀ m, 0 < q.walk.count m → ∀ d ∈ q.walk.divisors s m, 0 < d) ∧
    (∀ matched, ∃ q, Paces s (w.point n) q ∧ q.walk = (w.advance s matched).2 ∧
      q.children = n + matched.toNat) ∧
    ∃ q, Paces s (w.point n) q ∧ q.walk = (w.stop s).2 ∧ q.children = n := by
  refine ⟨fun q hpaces => ?_, fun matched => ?_, ?_⟩
  · have hcapped := (hpaces.keep (fun hpace => hpace.balanced hs hv) (h.balanced hs hv)).capped
    have hle : ∀ m, q.walk.counts.count m ≤ max 1 q.children ∧
        q.walk.ceilings.count m ≤ max 1 q.children := fun m => max_le_iff.1 (hcapped m)
    refine ⟨hle, fun hchildren m => ?_, fun m => divisors_pos⟩
    have hm := hle m
    omega
  · obtain ⟨q, hpaces, hwalk, hchildren, -⟩ := h.comesTo_advance hs hv matched
    exact ⟨q, hpaces, hwalk, hchildren⟩
  · obtain ⟨q, hpaces, hwalk, hchildren, -⟩ := h.comesTo_stop hs hv
    exact ⟨q, hpaces, hwalk, hchildren⟩

end Walk

/-- Any number of rows of any number of `a`. -/
def rowsSample : Components :=
  ((Components.withElements .v10 [("a", .zeroOrMore)]).withGroup .sequence .zeroOrMore
    [.element ⟨0⟩]).withGroup .sequence .once [.group ⟨0⟩]

theorem tallies_le_children_sample : rowsSample.schema.Built ∧
    rowsSample.schema.version = .v10 ∧ ∃ w, Walk.Course rowsSample.schema w 2 ∧
      w.ceilings.count (.group ⟨0⟩) = 2 ∧
      ∀ m, w.counts.count m ≤ 2 ∧ w.ceilings.count m ≤ 2 := by
  have hs : rowsSample.schema.Built :=
    (((Components.assembled_withElements ..).withGroup ..).withGroup ..).built rfl
  have hstart : Walk.start rowsSample.schema ⟨1⟩ .v10 = .ok ⟨⟨1⟩, .v10, ⟨⟨0⟩, [], false⟩,
      [⟨⟨1⟩, [], false⟩], Tally.zero, Tally.zero, some (.element ⟨0⟩)⟩ := by
    decide +kernel
  have hnever : ∀ {r : Except Failure (List Violation)}, r.isOk = true →
      ∀ f, r = .error f → ¬f.ExceedsDepth rowsSample.schema := by
    rintro _ hok f rfl
    cases hok
  have hcourse := (((Walk.Course.start hstart).advance true (hnever (by decide +kernel))).advance
    true (hnever (by decide +kernel))).advance false (hnever (by decide +kernel))
  exact ⟨hs, rfl, _, hcourse, by decide +kernel,
    ((Walk.tallies_le_children hs rfl hcourse).1 _ .refl).1⟩

/-- Any number of times an empty choice and an `a`, six groups deep. -/
def recountSample : Components :=
  let c := Components.withElements .v10 [("a", .once)]
  let c := { c with limits := { c.limits with maxModelDepth := 5 } }
  let c := c.withGroup .choice .once []
  let c := c.withGroup .sequence .oneOrMore [.group ⟨0⟩, .element ⟨0⟩]
  let c := c.withGroup .sequence .once [.group ⟨1⟩]
  let c := c.withGroup .sequence .once [.group ⟨2⟩]
  let c := c.withGroup .sequence .once [.group ⟨3⟩]
  let c := c.withGroup .sequence .once [.group ⟨4⟩]
  c.withGroup .sequence .once [.group ⟨5⟩]

/-- A walk that was stopped at the bound on the depth still stands on its leaf, and counts the child
once more. -/
theorem tallies_exceed_children : recountSample.schema.Built ∧
    recountSample.schema.version = .v10 ∧
    ∃ w₀ w₁ w₂ : Walk, Walk.start recountSample.schema ⟨6⟩ .v10 = .ok w₀ ∧
      w₀.advance recountSample.schema true =
        (.error (.modelDepth 6 5 (some "sequence group#6")), w₁) ∧
      w₁.advance recountSample.schema false = (.ok [], w₂) ∧
      max 1 1 < w₂.counts.count (.group ⟨1⟩) := by
  have hassembled : recountSample.Assembled := by
    unfold recountSample
    exact (((((((Components.Assembled.limits _ (Components.assembled_withElements ..)).withGroup
      ..).withGroup ..).withGroup ..).withGroup ..).withGroup ..).withGroup ..).withGroup ..
  have hs : recountSample.schema.Built := hassembled.built rfl
  have hstart : Walk.start recountSample.schema ⟨6⟩ .v10 = .ok ⟨⟨6⟩, .v10,
      ⟨⟨1⟩, [], false⟩, [⟨⟨2⟩, [], false⟩, ⟨⟨3⟩, [], false⟩, ⟨⟨4⟩, [], false⟩, ⟨⟨5⟩, [], false⟩,
        ⟨⟨6⟩, [], false⟩], Tally.zero, Tally.zero, some (.element ⟨0⟩)⟩ := by
    decide +kernel
  exact ⟨hs, rfl, _, _, _, hstart, Prod.ext (by decide +kernel) rfl,
    Prod.ext (by decide +kernel) rfl, by decide +kernel⟩

end Conform
