import Conform.Proofs.Model.Childless
import Conform.Proofs.Model.Nesting
import Conform.Proofs.Model.Paces
/-!
# Children and repetitions

Each repetition of a group is counted because of children, and no child counts twice: what a walk
has counted in the groups around one another is, all together, no more than the children. A member
of a sequence pays for the repetition when the last one ends, whatever others have occurred in it.
-/

namespace Conform

/-! ## Repetitions that are counted -/

namespace Walk

variable {s : Schema} {w : Walk} {m : Member}

/-- How often a member of a sequence may occur in one repetition, as far as it is counted. -/
def most (s : Schema) (w : Walk) (m : Member) : Nat :=
  match (s.occurs m).max with
  | some n => if n = 0 then w.count m else n.toNat
  | none => w.count m

/-- The repetitions of a choice for which an alternative stands at least. -/
def leastInChoice (s : Schema) (w : Walk) (m : Member) : Nat :=
  match (s.occurs m).max with
  | none => 1
  | some n => if n = 0 then 1 else ceilDiv (w.count m) n.toNat

/-- The repetitions of a sequence for which its first member stands at least. -/
def leastInSequence (s : Schema) (w : Walk) (m : Member) : Nat := max 1 (w.count m / w.most s m)

/-- The repetitions of a group for which a member stands at most. -/
def greatest (s : Schema) (w : Walk) (m : Member) : Nat :=
  max 1 (w.ceilingOrCount m / max 1 (s.occurs m).min.toNat)

/-- What the end of a repetition of a sequence counts. -/
inductive CountsRow (s : Schema) (w : Walk) : Walk → Prop
  | nothing : (∀ x ∈ (s.group w.here.group).members, w.count x = 0) → CountsRow s w w
  | once {before after : List Member} {m : Member} :
      (s.group w.here.group).members = before ++ m :: after → (∀ x ∈ before, w.count x = 0) →
      0 < w.count m → w.ceilingOrCount m = 1 ∨ (∃ x ∈ after, s.isEmptiable x = false) →
      CountsRow s w { w with counts := w.counts.add w.hereMember 1 }
  | several {before after : List Member} {m : Member} :
      (s.group w.here.group).members = before ++ m :: after → (∀ x ∈ before, w.count x = 0) →
      0 < w.count m → w.ceilingOrCount m ≠ 1 → (∀ x ∈ after, s.isEmptiable x = true) →
      CountsRow s w (w.addRepetitions (w.leastInSequence s m) (w.greatest s m))

theorem countsRow_countSequence (s : Schema) (w : Walk) : CountsRow s w (w.countSequence s) := by
  have hsplit := List.takeWhile_append_dropWhile (p := fun x => decide (w.count x = 0))
    (l := (s.group w.here.group).members)
  have hzero : ∀ x ∈ (s.group w.here.group).members.takeWhile fun x => decide (w.count x = 0),
      w.count x = 0 := fun x hx => by simpa using List.mem_takeWhile_imp hx
  have hhead := List.head?_dropWhile_not (fun x => decide (w.count x = 0))
    (s.group w.here.group).members
  unfold countSequence
  cases hdrop : (s.group w.here.group).members.dropWhile fun x => decide (w.count x = 0) with
  | nil =>
      rw [hdrop, List.append_nil] at hsplit
      exact .nothing (hsplit ▸ hzero)
  | cons m after =>
      rw [hdrop] at hsplit hhead
      have hpos : 0 < w.count m := Nat.pos_of_ne_zero (by simpa using hhead)
      dsimp only
      split
      · rename_i hsingle
        exact .once hsplit.symm hzero hpos (by simpa using hsingle)
      · rename_i hsingle
        rw [Bool.or_eq_true, not_or] at hsingle
        exact .several hsplit.symm hzero hpos (by simpa using hsingle.1) (by simpa using hsingle.2)

theorem ceilDiv_le (n : Nat) {d : Nat} (hd : 0 < d) : ceilDiv n d ≤ n := by
  rcases Nat.eq_zero_or_pos n with rfl | hn
  · exact (Nat.div_eq_of_lt (by omega)).le
  · refine (Nat.div_le_iff_le_mul_add_pred hd).2 ?_
    have hmul : n ≤ d * n := Nat.le_mul_of_pos_left n hd
    omega

theorem ceilingOrCount_le_reach (w : Walk) (m : Member) : w.ceilingOrCount m ≤ w.reach m := by
  unfold ceilingOrCount reach
  split
  · exact Nat.le_max_left _ _
  · exact Nat.le_max_right _ _

theorem count_le_reach (w : Walk) (m : Member) : w.count m ≤ w.reach m := Nat.le_max_left _ _

/-- A member that has occurred stands for no more repetitions than occurrences. -/
theorem leastInChoice_le (h : 0 < w.count m) : w.leastInChoice s m ≤ w.reach m := by
  refine le_trans ?_ (w.count_le_reach m)
  unfold leastInChoice
  split
  · exact h
  · split
    · exact h
    · rename_i n hn
      exact ceilDiv_le _ (Nat.pos_of_ne_zero fun hzero => hn (UInt32.toNat_inj.1 hzero))

theorem leastInSequence_le (h : 0 < w.count m) : w.leastInSequence s m ≤ w.reach m :=
  (max_le h (Nat.div_le_self _ _)).trans (w.count_le_reach m)

theorem greatest_le (h : 0 < w.count m) : w.greatest s m ≤ w.reach m :=
  max_le (h.trans_le (w.count_le_reach m))
    ((Nat.div_le_self _ _).trans (w.ceilingOrCount_le_reach m))

/-- The last member of a sequence closes the repetition. -/
theorem closeInSequence_of_split (hs : s.Built) {done : List Member}
    (hmembers : (s.group w.here.group).members = done ++ m :: w.here.rest) :
    (closeInSequence s w m).2 = if w.here.rest = [] then w.countSequence s else w := by
  have hnodup := hs.forest.nodup w.here.group
  rw [hmembers] at hnodup
  unfold closeInSequence
  simp only [hmembers, getLast?_eq_some_iff hnodup]

theorem closeInChoice_of_pos (h : 0 < w.count m) : (w.closeInChoice s m).2 =
    restartGroup s { w with
      counts := (w.counts.add w.hereMember (w.leastInChoice s m)).set m 0
      ceilings := w.ceilings.add w.hereMember (w.greatest s m) } := by
  unfold closeInChoice
  rw [if_neg (by omega)]
  rfl

end Walk

/-! ## Groups around a walk -/

section

variable (s : Schema) (root : GroupId) (counts ceilings : Tally)

/-- The greatest number of occurrences of a member for which tallies stand. -/
def Tally.reach (m : Member) : Nat := max (counts.count m) (ceilings.count m)

/-- A walk may pass over a member of a group although nothing in the group has matched. -/
def Schema.MayLack (g : GroupId) (m : Member) : Prop :=
  s.isEmptiable m = true ∨ g = root ∧ 0 < (s.group g).occurs.min.toNat

/-- The members of a sequence that are behind a walk in this repetition. Each of them stands for no
more than the children that are paid. -/
structure PaidOff (g : GroupId) (done : List Member) (paid : Nat) : Prop where
  reach_le : ∀ x ∈ done, counts.reach ceilings x ≤ paid
  mayLack : ∀ {before after : List Member} {x : Member}, done = before ++ x :: after →
    (∀ y ∈ before, counts.count y = 0) → counts.count x = 0 → s.MayLack root g x

/-- A group whose member `m` a walk is in. -/
inductive Midway (m : Member) (f : Frame) (paid : Nat) : Prop
  | choice : (s.group f.group).compositor = .choice → m ∈ (s.group f.group).members →
      (∀ x ∈ f.rest, x ∈ (s.group f.group).members) → Midway m f paid
  | sequence {done : List Member} : (s.group f.group).compositor = .sequence →
      (s.group f.group).members = done ++ m :: f.rest →
      PaidOff s root counts ceilings f.group done paid →
      (f.matched = true → (m.isGroup = false ∧ 0 < counts.count m) ∨
        ∃ x ∈ done, 0 < counts.count x) → Midway m f paid

/-- A group in which a walk looks for the next member. -/
inductive Upcoming (f : Frame) (paid : Nat) : Prop
  /-- The group must not occur. -/
  | barred : (s.group f.group).compositor ≠ .all → (s.group f.group).occurs.max = some 0 →
      Upcoming f paid
  | choice : (s.group f.group).compositor = .choice →
      (∀ x ∈ f.rest, x ∈ (s.group f.group).members) → Upcoming f paid
  | sequence {done : List Member} : (s.group f.group).compositor = .sequence →
      (s.group f.group).members = done ++ f.rest →
      PaidOff s root counts ceilings f.group done paid →
      (f.matched = true → ∃ x ∈ done, 0 < counts.count x) → Upcoming f paid
  /-- The repetition of the sequence has been counted. -/
  | complete : (s.group f.group).compositor = .sequence → f.rest = [] → f.matched = true →
      Upcoming f paid

/-- The groups around a group, and the children that are paid for what is counted in them and for
the repetitions of the group. -/
inductive Ledger : GroupId → List Frame → Nat → Prop
  | root {k : Nat} : counts.reach ceilings (.group root) ≤ k → Ledger root [] k
  | nested {g : GroupId} {f : Frame} {outer : List Frame} {i j k : Nat} : Ledger f.group outer i →
      IsOpen s counts ceilings f.group → Midway s root counts ceilings (.group g) f j →
      i + j + counts.reach ceilings (.group g) ≤ k → Ledger g (f :: outer) k

end

variable {s : Schema} {root g : GroupId} {counts ceilings counts' ceilings' : Tally} {m : Member}
  {f : Frame} {outer : List Frame} {done : List Member} {i j k : Nat}

theorem Tally.reach_congr (hcount : counts'.count m = counts.count m)
    (hceiling : ceilings'.count m = ceilings.count m) :
    counts'.reach ceilings' m = counts.reach ceilings m := by
  rw [reach, reach, hcount, hceiling]

namespace PaidOff

theorem nil : PaidOff s root counts ceilings g [] k := by
  constructor
  · intro x hx
    cases hx
  · intro before after x hsplit
    simp at hsplit

theorem mono (h : PaidOff s root counts ceilings g done i) (hle : i ≤ j) :
    PaidOff s root counts ceilings g done j :=
  ⟨fun x hx => (h.reach_le x hx).trans hle, h.mayLack⟩

theorem congr (h : PaidOff s root counts ceilings g done k)
    (hsame : ∀ x ∈ done, counts'.count x = counts.count x ∧
      ceilings'.count x = ceilings.count x) : PaidOff s root counts' ceilings' g done k := by
  constructor
  · intro x hx
    rw [Tally.reach_congr (hsame x hx).1 (hsame x hx).2]
    exact h.reach_le x hx
  · intro before after x hsplit hbefore hx
    have hmem : ∀ y ∈ before ++ [x], y ∈ done := by
      rw [hsplit]
      intro y hy
      simp at hy ⊢
      tauto
    refine h.mayLack hsplit (fun y hy => ?_) ?_
    · rw [← (hsame y (hmem y (by simp [hy]))).1]
      exact hbefore y hy
    · rw [← (hsame x (hmem x (by simp))).1]
      exact hx

/-- One member more. -/
theorem snoc (h : PaidOff s root counts ceilings g done i)
    (hm : counts.count m = 0 → (∀ x ∈ done, counts.count x = 0) → s.MayLack root g m) :
    PaidOff s root counts ceilings g (done ++ [m]) (i + counts.reach ceilings m) := by
  constructor
  · intro x hx
    rcases List.mem_append.1 hx with hx | hx
    · exact (h.reach_le x hx).trans (Nat.le_add_right _ _)
    · rw [List.mem_singleton.1 hx]
      exact Nat.le_add_left _ _
  · intro before after x hsplit hbefore hx
    rcases List.eq_nil_or_concat' after with rfl | ⟨after, last, rfl⟩
    · obtain ⟨rfl, hlast⟩ := List.append_inj' hsplit rfl
      obtain rfl : m = x := List.singleton_inj.1 hlast
      exact hm hx hbefore
    · rw [← List.cons_append, ← List.append_assoc] at hsplit
      obtain ⟨hdone, -⟩ := List.append_inj' hsplit rfl
      exact h.mayLack hdone hbefore hx

end PaidOff

namespace Midway

theorem mem (h : Midway s root counts ceilings m f k) : m ∈ (s.group f.group).members := by
  cases h with
  | choice _ hmem => exact hmem
  | sequence _ hmembers =>
      rw [hmembers]
      simp

theorem ne_all (h : Midway s root counts ceilings m f k) :
    (s.group f.group).compositor ≠ .all := by
  cases h with
  | choice hchoice => simp [hchoice]
  | sequence hsequence => simp [hsequence]

/-- Only the other members of the group count. -/
theorem congr (h : Midway s root counts ceilings m f k) (hs : s.Built)
    (hsame : ∀ x ∈ (s.group f.group).members, x ≠ m →
      counts'.count x = counts.count x ∧ ceilings'.count x = ceilings.count x)
    (hm : m.isGroup = false → 0 < counts.count m → 0 < counts'.count m) :
    Midway s root counts' ceilings' m f k := by
  cases h with
  | choice hchoice hmem hrest => exact .choice hchoice hmem hrest
  | @sequence done hsequence hmembers hpaid hmatched =>
      have hdone : ∀ x ∈ done, counts'.count x = counts.count x ∧
          ceilings'.count x = ceilings.count x := by
        intro x hx
        have hnodup := hs.forest.nodup f.group
        rw [hmembers] at hnodup
        refine hsame x (by simp [hmembers, hx]) ?_
        rintro rfl
        exact (List.disjoint_of_nodup_append hnodup) hx (by simp)
      refine .sequence hsequence hmembers (hpaid.congr hdone) fun htrue => ?_
      rcases hmatched htrue with ⟨hleaf, hpos⟩ | ⟨x, hx, hpos⟩
      · exact .inl ⟨hleaf, hm hleaf hpos⟩
      · refine .inr ⟨x, hx, ?_⟩
        rw [(hdone x hx).1]
        exact hpos

end Midway

theorem Upcoming.ne_all (h : Upcoming s root counts ceilings f k) :
    (s.group f.group).compositor ≠ .all := by
  cases h with
  | barred hne => exact hne
  | choice hchoice => simp [hchoice]
  | sequence hsequence => simp [hsequence]
  | complete hsequence => simp [hsequence]

/-- The next member of a group begins, whatever it was counted for before. -/
theorem Upcoming.begins (h : Upcoming s root counts ceilings f k) (hs : s.Built)
    (hmax : (s.group f.group).occurs.max ≠ some 0) {rest : List Member}
    (hrest : f.rest = m :: rest) (hsame : ∀ x, x ≠ m →
      counts'.count x = counts.count x ∧ ceilings'.count x = ceilings.count x) :
    Midway s root counts' ceilings' m { f with rest } k := by
  cases h with
  | barred _ hzero => exact absurd hzero hmax
  | choice hchoice hmembers =>
      rw [hrest, List.forall_mem_cons] at hmembers
      exact .choice hchoice hmembers.1 hmembers.2
  | complete _ hnone =>
      rw [hrest] at hnone
      cases hnone
  | @sequence done hsequence hmembers hpaid hmatched =>
      rw [hrest] at hmembers
      have hdone : ∀ x ∈ done, x ≠ m := by
        have hnodup := hs.forest.nodup f.group
        rw [hmembers] at hnodup
        rintro x hx rfl
        exact (List.disjoint_of_nodup_append hnodup) hx (by simp)
      refine .sequence hsequence hmembers
        (hpaid.congr fun x hx => hsame x (hdone x hx)) fun htrue => .inr ?_
      obtain ⟨x, hx, hpos⟩ := hmatched htrue
      refine ⟨x, hx, ?_⟩
      rw [(hsame x (hdone x hx)).1]
      exact hpos

/-- A group that begins anew. -/
theorem upcoming_items (hne : (s.group g).compositor ≠ .all) (v : Version) :
    Upcoming s root counts ceilings ⟨g, Walk.items s v g, false⟩ k := by
  by_cases hmax : (s.group g).occurs.max = some 0
  · exact .barred hne hmax
  have hitems : Walk.items s v g = (s.group g).members := Walk.items_of_ne_all hne hmax
  cases hcomp : (s.group g).compositor with
  | all => exact absurd hcomp hne
  | choice => exact .choice hcomp fun x hx => by rwa [hitems] at hx
  | sequence =>
      have hmembers : (s.group g).members = [] ++ Walk.items s v g := hitems.symm
      exact .sequence hcomp hmembers .nil nofun

namespace Ledger

theorem around (h : Ledger s root counts ceilings g outer k) : s.Around g outer := by
  induction h with
  | root => exact .root
  | nested _ _ hmidway _ ih => exact .nested hmidway.mem ih

theorem reach_le (h : Ledger s root counts ceilings g outer k) :
    counts.reach ceilings (.group g) ≤ k := by
  cases h with
  | root hle => exact hle
  | nested _ _ _ hle => omega

theorem eq_root (h : Ledger s root counts ceilings g [] k) : g = root := by
  cases h
  rfl

/-- What is known of the group around a group. -/
theorem enclosing (h : Ledger s root counts ceilings g (f :: outer) k) :
    ∃ i j, Ledger s root counts ceilings f.group outer i ∧ IsOpen s counts ceilings f.group ∧
      Midway s root counts ceilings (.group g) f j ∧
      i + j + counts.reach ceilings (.group g) ≤ k := by
  cases h with
  | nested hledger hopen hmidway hle => exact ⟨_, _, hledger, hopen, hmidway, hle⟩

theorem congr (h : Ledger s root counts ceilings g outer k) (hs : s.Built)
    (hhere : counts'.count (.group g) = counts.count (.group g) ∧
      ceilings'.count (.group g) = ceilings.count (.group g))
    (hsame : ∀ f ∈ outer, ∀ x, x ∈ (s.group f.group).members ∨ x = .group f.group →
      counts'.count x = counts.count x ∧ ceilings'.count x = ceilings.count x) :
    Ledger s root counts' ceilings' g outer k := by
  induction h with
  | root hle =>
      rw [← Tally.reach_congr hhere.1 hhere.2] at hle
      exact .root hle
  | @nested g f _ _ _ _ _ hopen hmidway hle ih =>
      have hf := hsame f List.mem_cons_self
      have hgroup := hf (.group f.group) (.inr rfl)
      rw [← Tally.reach_congr hhere.1 hhere.2] at hle
      refine .nested (ih hgroup fun f' hf' => hsame f' (List.mem_cons_of_mem _ hf'))
        (hopen.congr hgroup.1 hgroup.2) (hmidway.congr hs (fun x hx _ => hf x (.inl hx)) ?_) hle
      intro hleaf
      cases hleaf

/-- More repetitions of a group are paid by as many children. What is counted for its members does
not matter to the groups around it. -/
theorem pay (h : Ledger s root counts ceilings g outer i) (hs : s.Built)
    (hsame : ∀ x, x ≠ .group g → x ∉ (s.group g).members →
      counts'.count x = counts.count x ∧ ceilings'.count x = ceilings.count x)
    (hmore : counts'.reach ceilings' (.group g) ≤ counts.reach ceilings (.group g) + j) :
    Ledger s root counts' ceilings' g outer (i + j) := by
  have hlt := h.around.index_lt hs
  cases h with
  | root hle => exact .root (hmore.trans (Nat.add_le_add_right hle j))
  | @nested _ f outer _ _ _ hledger hopen hmidway hle =>
      have hfar := hledger.around.index_lt hs
      have hmem := hmidway.mem
      have hgroup : ∀ f' ∈ f :: outer, counts'.count (.group f'.group) =
          counts.count (.group f'.group) ∧
            ceilings'.count (.group f'.group) = ceilings.count (.group f'.group) := by
        intro f' hf'
        have hindex := hlt f' hf'
        refine hsame _ (fun heq => ?_) fun hin => ?_
        · rw [Member.group.inj heq] at hindex
          omega
        · have hback := hs.forest.index_lt hin
          omega
      have hother : ∀ f' ∈ f :: outer, ∀ x ∈ (s.group f'.group).members, x ≠ .group g →
          counts'.count x = counts.count x ∧ ceilings'.count x = ceilings.count x := by
        intro f' hf' x hx hne
        refine hsame x hne fun hin => ?_
        have hindex := hlt f' hf'
        rw [hs.forest.group_unique hin hx] at hindex
        omega
      refine .nested (hledger.congr hs (hgroup f List.mem_cons_self) ?_)
        (hopen.congr (hgroup f List.mem_cons_self).1 (hgroup f List.mem_cons_self).2)
        (hmidway.congr hs (fun x hx hne => hother f List.mem_cons_self x hx hne) nofun)
        (by omega)
      intro f' hf' x hx
      rcases hx with hx | rfl
      · refine hother f' (List.mem_cons_of_mem _ hf') x hx ?_
        rintro rfl
        have hindex := hfar f' hf'
        rw [hs.forest.group_unique hmem hx] at hindex
        omega
      · exact hgroup f' (List.mem_cons_of_mem _ hf')

/-- What is counted for the members of a group does not matter to its repetitions. -/
theorem keep (h : Ledger s root counts ceilings g outer k) (hs : s.Built)
    (hsame : ∀ x, x ∉ (s.group g).members →
      counts'.count x = counts.count x ∧ ceilings'.count x = ceilings.count x) :
    Ledger s root counts' ceilings' g outer k := by
  have hgroup := hsame (.group g) fun hmem => hs.forest.ne_of_mem hmem rfl
  exact h.pay (j := 0) hs (fun x _ hx => hsame x hx) (Tally.reach_congr hgroup.1 hgroup.2).le

end Ledger

end Conform
