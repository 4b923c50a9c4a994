import Conform.Proofs.Model.FlatWalk
/-!
# Sequences of parts

A sequence that occurs once, of elements and groups of single elements: its words, and what the end
of one of its parts comes to.
-/

namespace Conform

namespace Components

variable {c : Components}

/-- An element, or a group of single elements. A sequence of them has one that must be there. -/
inductive IsPart (c : Components) : Member → Prop
  | element {m : Member} : m.isGroup = false → IsPart c m
  | choice {g : GroupId} : c.IsFlatChoice g → IsPart c (.group g)
  | sequence {g : GroupId} : c.IsFlatSequence g →
      (∃ m ∈ (c.group g).members, (c.occurs m).min.toNat ≠ 0) → IsPart c (.group g)

/-- The leaves of a part. -/
def leavesOf (c : Components) : Member → List Member
  | .group g => (c.group g).members
  | m => [m]

theorem IsPart.isGroup_leaf {m l : Member} (h : c.IsPart m) (hl : l ∈ c.leavesOf m) :
    l.isGroup = false := by
  cases h with
  | element hm =>
      cases m with
      | group g => cases hm
      | element e => rw [List.mem_singleton.1 hl]; rfl
      | wildcard x => rw [List.mem_singleton.1 hl]; rfl
  | choice hg => exact hg.distinct.isGroup_eq_false hl
  | sequence hg _ => exact hg.distinct.isGroup_eq_false hl

theorem mem_leavesOf_self {m : Member} (hm : m.isGroup = false) : m ∈ c.leavesOf m := by
  cases m with
  | group g => cases hm
  | element e => exact List.mem_singleton.2 rfl
  | wildcard x => exact List.mem_singleton.2 rfl

/-- The first name of a word of a part belongs to one of its leaves. -/
theorem IsPart.words_head {m : Member} {n : QName} {u : List QName} (h : c.IsPart m)
    (hwords : c.Words c.occurs m (n :: u)) : ∃ l ∈ c.leavesOf m, c.passes l n = true := by
  obtain ⟨hadmits, htimes⟩ := hwords
  cases h with
  | element hm =>
      have hall := ((times_leaf_iff hm).1 htimes).2
      exact ⟨m, mem_leavesOf_self hm, hall n (List.mem_cons_self ..)⟩
  | choice hg => exact (hg.times_iff.1 htimes).2 n (List.mem_cons_self ..)
  | sequence hg _ =>
      obtain ⟨_, _, _, _, -, -, honce, -, -⟩ := htimes.first
      obtain ⟨before, l, rest, hsplit, -, hn, -⟩ :=
        row_single_cons_name hg.single (hg.once_iff.1 honce)
      exact ⟨l, by simp [leavesOf, hsplit], hn⟩

/-- The first name of the words of some parts belongs to a leaf of one of them. -/
theorem row_head {n : QName} {v : List QName} : ∀ {ms : List Member}, (∀ m ∈ ms, c.IsPart m) →
    c.Row c.occurs ms (n :: v) → ∃ m ∈ ms, ∃ l ∈ c.leavesOf m, c.passes l n = true := by
  intro ms
  induction ms with
  | nil =>
      intro _ hrow
      cases hrow
  | cons m ms ih =>
      intro hparts hrow
      generalize hw : n :: v = w at hrow
      cases hrow with
      | @cons _ _ x y hword hrest =>
          cases x with
          | nil =>
              rw [List.nil_append] at hw
              rw [← hw] at hrest
              obtain ⟨m', hm', hl⟩ := ih (fun m hm => hparts m (List.mem_cons_of_mem _ hm)) hrest
              exact ⟨m', List.mem_cons_of_mem _ hm', hl⟩
          | cons n' x =>
              obtain ⟨rfl, -⟩ := List.cons.inj hw
              exact ⟨m, List.mem_cons_self .., (hparts m (List.mem_cons_self ..)).words_head hword⟩

/-! ## What comes before some members -/

/-- What `P` holds of, and then words of some members. -/
def Then (c : Components) (P : List QName → Prop) (rest : List Member) (ns : List QName) : Prop :=
  ∃ u v, ns = u ++ v ∧ P u ∧ c.Row c.occurs rest v

variable {P Q : List QName → Prop} {rest : List Member} {ns : List QName} {n : QName}

theorem then_words {m : Member} :
    c.Then (c.More m 0) rest ns ↔ c.Row c.occurs (m :: rest) ns := by
  unfold Then
  constructor
  · intro h
    obtain ⟨u, v, rfl, hu, hv⟩ := h
    exact .cons (more_zero.1 hu) hv
  · intro h
    cases h with
    | cons hword hrest => exact ⟨_, _, rfl, more_zero.2 hword, hrest⟩

/-- Nothing more comes before the members. -/
theorem then_nil {p : Prop} (h : ∀ u v, ns = u ++ v → (P u ↔ u = [] ∧ p)) :
    c.Then P rest ns ↔ p ∧ c.Row c.occurs rest ns := by
  constructor
  · intro hthen
    obtain ⟨u, v, heq, hu, hv⟩ := hthen
    obtain ⟨hnil, hp⟩ := (h u v heq).1 hu
    rw [heq, hnil]
    exact ⟨hp, hv⟩
  · intro hrow
    obtain ⟨hp, hrow⟩ := hrow
    exact ⟨[], ns, rfl, (h [] ns rfl).2 ⟨rfl, hp⟩, hrow⟩

/-- The next child comes before the members if none of them can begin with it. -/
theorem then_take (hrow : ∀ v, ¬c.Row c.occurs rest (n :: v)) (h : ∀ u, P (n :: u) ↔ Q u) :
    c.Then P rest (n :: ns) ↔ c.Then Q rest ns := by
  constructor
  · intro hthen
    obtain ⟨u, v, heq, hu, hv⟩ := hthen
    cases u with
    | nil =>
        rw [List.nil_append] at heq
        rw [← heq] at hv
        exact absurd hv (hrow ns)
    | cons n' u =>
        obtain ⟨rfl, rfl⟩ := List.cons.inj heq
        exact ⟨u, v, rfl, (h u).1 hu, hv⟩
  · intro hthen
    obtain ⟨u, v, rfl, hu, hv⟩ := hthen
    exact ⟨n :: u, v, rfl, (h u).2 hu, hv⟩

theorem then_and {p : Prop} : c.Then (fun u => p ∧ P u) rest ns ↔ p ∧ c.Then P rest ns := by
  constructor
  · intro hthen
    obtain ⟨u, v, heq, ⟨hp, hu⟩, hv⟩ := hthen
    exact ⟨hp, u, v, heq, hu, hv⟩
  · intro hthen
    obtain ⟨hp, u, v, heq, hu, hv⟩ := hthen
    exact ⟨u, v, heq, ⟨hp, hu⟩, hv⟩

theorem then_congr (h : ∀ u v, ns = u ++ v → (P u ↔ Q u)) : c.Then P rest ns ↔ c.Then Q rest ns := by
  constructor
  · intro hthen
    obtain ⟨u, v, heq, hu, hv⟩ := hthen
    exact ⟨u, v, heq, (h u v heq).1 hu, hv⟩
  · intro hthen
    obtain ⟨u, v, heq, hu, hv⟩ := hthen
    exact ⟨u, v, heq, (h u v heq).2 hu, hv⟩

end Components

/-! ## Sequences that occur once -/

/-- A sequence that occurs at most once, of parts that may occur. All names are different. -/
structure Schema.IsOnceThrough (s : Schema) (root : GroupId) : Prop where
  compositor : (s.group root).compositor = .sequence
  max_one : (s.group root).occurs.max = some 1
  parts : ∀ m ∈ (s.group root).members, s.IsPart m ∧ (s.occurs m).max ≠ some 0
  distinct : s.DistinctElements (s.leaves root)

namespace Schema.IsOnceThrough

variable {s : Schema} {root : GroupId} {before rest : List Member} {m l : Member} {n : QName}

theorem part (h : s.IsOnceThrough root) (hmembers : (s.group root).members = before ++ m :: rest) :
    s.IsPart m :=
  (h.parts m (by simp [hmembers])).1

theorem leaves_eq (h : s.IsOnceThrough root) (hs : s.Built) :
    s.leaves root = (s.group root).members.flatMap s.leavesOf := by
  rw [hs.leaves_eq]
  apply List.flatMap_congr
  intro m hm
  obtain ⟨hpart, hmax⟩ := h.parts m hm
  cases m with
  | element e => rfl
  | wildcard x => rfl
  | group g =>
      have hsub : s.leaves g = (s.group g).members := by
        have hleaf : ∀ x ∈ (s.group g).members, x.isGroup = false :=
          fun x hx => hpart.isGroup_leaf hx
        rw [hs.leaves_eq]
        refine (List.flatMap_congr ?_).trans (List.flatMap_singleton' _)
        intro x hx
        cases x with
        | group sub => cases hleaf _ hx
        | element e => rfl
        | wildcard x => rfl
      have hne : (s.group g).occurs.isEmpty = false := decide_eq_false hmax
      simp only [hne, hsub]
      rfl

/-- A leaf belongs to one part. -/
theorem not_mem_leavesOf (h : s.IsOnceThrough root) (hs : s.Built)
    (hmembers : (s.group root).members = before ++ m :: rest) (hl : l ∈ s.leavesOf m) :
    ∀ x ∈ before ++ rest, l ∉ s.leavesOf x := by
  have hnodup := h.distinct.nodup
  rw [h.leaves_eq hs, hmembers, List.flatMap_append, List.flatMap_cons, List.nodup_append,
    List.nodup_append] at hnodup
  obtain ⟨-, ⟨-, -, hlater⟩, hearlier⟩ := hnodup
  intro x hx hin
  rcases List.mem_append.1 hx with hx | hx
  · exact hearlier l (List.mem_flatMap.2 ⟨x, hx, hin⟩) l (List.mem_append_left _ hl) rfl
  · exact hlater l hl l (List.mem_flatMap.2 ⟨x, hx, hin⟩) rfl

/-- The parts behind one do not begin with a name of it. -/
theorem not_row (h : s.IsOnceThrough root) (hs : s.Built)
    (hmembers : (s.group root).members = before ++ m :: rest) (hl : l ∈ s.leavesOf m)
    (hn : s.passes l n = true) (v : List QName) : ¬s.Row s.occurs rest (n :: v) := by
  intro hrow
  have hparts : ∀ x ∈ rest, s.IsPart x := by
    intro x hx
    exact (h.parts x (by simp [hmembers, hx])).1
  obtain ⟨x, hx, l', hl', hn'⟩ := Components.row_head hparts hrow
  have hmem : ∀ y ∈ (s.group root).members, ∀ z ∈ s.leavesOf y, z ∈ s.leaves root := by
    intro y hy z hz
    rw [h.leaves_eq hs]
    exact List.mem_flatMap.2 ⟨y, hy, hz⟩
  have heq := h.distinct.eq_of_passes (hmem m (by simp [hmembers]) l hl)
    (hmem x (by simp [hmembers, hx]) l' hl') hn hn'
  exact h.not_mem_leavesOf hs hmembers hl x (List.mem_append_right _ hx) (heq ▸ hl')

/-- A part can be missing just if its bounds admit it. -/
theorem isEmptiable_part (h : s.IsOnceThrough root) (hs : s.Built)
    (hmembers : (s.group root).members = before ++ m :: rest) :
    s.isEmptiable m = true ↔ (s.occurs m).min.toNat = 0 := by
  have hmin : ∀ o : Occurs, o.isEmptiable = true ↔ o.min.toNat = 0 := by
    intro o
    rw [Occurs.isEmptiable, decide_eq_true_eq, ← UInt32.toNat_inj]
    rfl
  cases h.part hmembers with
  | element hm => exact s.isEmptiable_leaf hm
  | @choice g hg =>
      have hnot : (s.group g).members.any s.isEmptiable = false := by
        rw [List.any_eq_false]
        intro x hx hempty
        have hzero := (s.isEmptiable_leaf (hg.distinct.isGroup_eq_false hx)).1 hempty
        rw [hg.once x hx] at hzero
        cases hzero
      rw [hs.isEmptiable_group, hg.compositor]
      simp only [hnot, List.isEmpty_eq_false_iff.2 hg.nonempty, Bool.or_false]
      exact hmin _
  | @sequence g hg hrequired =>
      obtain ⟨x, hx, hxmin⟩ := hrequired
      have hleaf := hg.distinct.isGroup_eq_false hx
      have hnot : (s.group g).members.all s.isEmptiable = false := by
        rw [List.all_eq_false]
        exact ⟨x, hx, fun hempty => hxmin ((s.isEmptiable_leaf hleaf).1 hempty)⟩
      rw [hs.isEmptiable_group, hg.compositor]
      simp only [hnot, List.isEmpty_eq_false_iff.2 (List.ne_nil_of_mem hx), Bool.or_false]
      exact hmin _

end Schema.IsOnceThrough

/-! ## The end of a part -/

namespace Walk

/-- What a walk has counted in a sequence of parts, in whose frame some parts are done. -/
structure Parts (s : Schema) (root : GroupId) (w : Walk) (f : Frame) (done rest : List Member) :
    Prop where
  group : f.group = root
  members : (s.group root).members = done ++ rest
  count_root : w.count (.group root) = 0
  ceiling_root : w.ceilings.count (.group root) = 0
  le_max : ∀ x ∈ done, ∀ n ∈ (s.occurs x).max, w.count x ≤ n.toNat
  ceilings : ∀ l ∈ s.leaves root, w.ceilings.count l = 0
  fresh : ∀ g, .group g ∈ f.rest → ∀ x ∈ (s.group g).members, w.count x = 0

/-- A walk between two parts, or behind the last one of the only repetition. -/
inductive AtCursor (s : Schema) (root : GroupId) (w : Walk) : Prop
  | between (done : List Member) : w.outer = [] → w.Parts s root w.here done w.here.rest →
      (w.here.matched = true → w.here.rest ≠ [] ∧ ∃ x ∈ done, 0 < w.count x) → AtCursor s root w
  | full : w.outer = [] → w.here.group = root → w.here.rest = [] → w.here.matched = true →
      w.count (.group root) = 1 → AtCursor s root w

/-- What is still to come between two parts. A sequence that may be missing is so as a whole. -/
def CursorRest (s : Schema) (root : GroupId) (f : Frame) (ns : List QName) : Prop :=
  s.Row s.occurs f.rest ns ∨ ns = [] ∧ f.matched = false ∧ (s.group root).occurs.min.toNat = 0

/-- What is still to come when a part has ended with a count. -/
def PartEnds (s : Schema) (root : GroupId) (f : Frame) (m : Member) (k : Nat) (ns : List QName) :
    Prop :=
  (s.occurs m).min.toNat ≤ k ∧ s.Row s.occurs f.rest ns ∨
    ns = [] ∧ f.matched = false ∧ k = 0 ∧ (s.group root).occurs.min.toNat = 0

/-- What the end of a part comes to: the place behind it, or the end of the walk. -/
inductive ClosesPart (s : Schema) (root : GroupId) (f : Frame) (m : Member) (k : Nat) :
    Option Bool × Walk → Prop
  | on {missing : Bool} {w : Walk} : w.AtCursor s root → w.here.rest = f.rest →
      (missing = true → k < (s.occurs m).min.toNat) →
      (∀ ns, PartEnds s root f m k ns ↔ missing = false ∧ CursorRest s root w.here ns) →
      ClosesPart s root f m k (some missing, w)
  | past {w : Walk} : w.here.group = root → w.count (.group root) = 0 →
      (s.group root).occurs.min.toNat = 0 → (∀ ns, PartEnds s root f m k ns ↔ ns = []) →
      ClosesPart s root f m k (none, w)

variable {s : Schema} {root : GroupId} {w : Walk} {f : Frame} {done : List Member} {m : Member}

/-- A sequence counts one repetition if no member was there too often. -/
theorem countSequence_one
    (hle : ∀ x ∈ (s.group w.here.group).members, ∀ n ∈ (s.occurs x).max, w.count x ≤ n.toNat)
    (hpos : ∃ x ∈ (s.group w.here.group).members, 0 < w.count x) :
    ∃ ceilings, w.countSequence s =
        { w with counts := w.counts.add w.hereMember 1, ceilings := ceilings } ∧
      ∀ x, x ≠ w.hereMember → ceilings.count x = w.ceilings.count x := by
  unfold countSequence
  cases hdrop : (s.group w.here.group).members.dropWhile (fun x => w.count x = 0) with
  | nil =>
      obtain ⟨x, hx, hxpos⟩ := hpos
      have hzero := List.dropWhile_eq_nil_iff.1 hdrop x hx
      simp only [decide_eq_true_eq] at hzero
      omega
  | cons x later =>
      have hx : x ∈ (s.group w.here.group).members := by
        have hsub := List.dropWhile_subset (fun x => decide (w.count x = 0))
          (l := (s.group w.here.group).members)
        rw [hdrop] at hsub
        exact hsub (List.mem_cons_self ..)
      have hleast : ∀ k r, w.count x ≤ k → w.addRepetitions (max 1 (w.count x / k)) r =
          { w with
            counts := w.counts.add w.hereMember 1
            ceilings := w.ceilings.add w.hereMember r } := by
        intro k r hk
        rw [Nat.max_eq_left (Nat.div_le_of_le_mul (by omega))]
        rfl
      simp only
      split
      · exact ⟨w.ceilings, rfl, fun _ _ => rfl⟩
      · refine ⟨_, hleast _ (max 1 (w.ceilingOrCount x / max 1 (s.occurs x).min.toNat)) ?_, ?_⟩
        swap
        · intro y hy
          simp [hy]
        cases hmax : (s.occurs x).max with
        | none => exact Nat.le_refl _
        | some n =>
            have hn := hle x hx n hmax
            simp only
            split
            · exact Nat.le_refl _
            · exact hn

/-- The end of a part that was there, or that others were there before. -/
theorem Parts.closes_counted (hs : s.Built) (hg : s.IsOnceThrough root)
    (h : w.Parts s root f done (m :: f.rest))
    (hle : ∀ n ∈ (s.occurs m).max, w.count m ≤ n.toNat) (hreach : w.reach m = w.count m)
    (hmatched : f.matched = true → ∃ x ∈ done ++ [m], 0 < w.count x)
    (hcounted : f.matched = true ∨ 0 < w.count m) (outer : List Frame) :
    ClosesPart s root f m (w.count m) (closeItem s [] m { w with here := f, outer := outer }) := by
  obtain ⟨rfl, hmembers, hcount, hceiling, hmax, hceilings, hfresh⟩ := h
  have hmembers' : (s.group f.group).members = (done ++ [m]) ++ f.rest := by
    rw [hmembers]
    simp
  have hsome : ∃ x ∈ done ++ [m], 0 < w.count x := by
    rcases hcounted with hm | hm
    · exact hmatched hm
    · exact ⟨m, by simp, hm⟩
  have hle' : ∀ x ∈ done ++ [m], ∀ n ∈ (s.occurs x).max, w.count x ≤ n.toNat := by
    intro x hx
    rcases List.mem_append.1 hx with hx | hx
    · exact hmax x hx
    · rw [List.mem_singleton.1 hx]
      exact hle
  have hroot : m ≠ .group f.group := by
    rintro rfl
    exact hs.forest.ne_of_mem (g := f.group) (by simp [hmembers]) rfl
  have hends : ∀ ns, PartEnds s f.group f m (w.count m) ns ↔
      (s.occurs m).min.toNat ≤ w.count m ∧ s.Row s.occurs f.rest ns := by
    intro ns
    constructor
    · intro h
      rcases h with h | ⟨-, hno, hzero, -⟩
      · exact h
      · rcases hcounted with hm | hm
        · rw [hno] at hm
          cases hm
        · omega
    · exact .inl
  have hlast := getLast?_eq_some_iff (hmembers ▸ hs.forest.nodup f.group)
  rw [← hmembers] at hlast
  rw [closeItem_counted hg.compositor hcounted]
  have hreach' : ∀ v : Walk, v.count m = w.count m → v.ceilings.count m = w.ceilings.count m →
      v.reach m = w.count m := by
    intro v hv hv'
    rw [← hreach]
    unfold reach
    unfold count at hv
    rw [hv, hv']
  have hclosed : ∃ w', closeInSequence s { w with here := { f with matched := true }, outer := [] } m =
      ((s.occurs m).isMissing (w.count m), w') ∧ w'.AtCursor s f.group ∧
        w'.here = { f with matched := true } := by
    unfold closeInSequence
    by_cases hrest : f.rest = []
    · -- the last part closes the repetition
      rw [hrest, List.append_nil] at hmembers'
      obtain ⟨ceilings, hcounts, hother⟩ := countSequence_one (s := s)
        (w := { w with here := { f with matched := true }, outer := [] })
        (hmembers' ▸ hle') (hmembers' ▸ hsome)
      rw [if_pos (hlast.2 hrest), hcounts]
      have hcountM : (w.counts.add (.group f.group) 1).count m = w.counts.count m := by
        simp [hroot]
      refine ⟨{ w with
        here := { f with matched := true }
        outer := []
        counts := w.counts.add (.group f.group) 1
        ceilings := ceilings }, ?_, .full rfl rfl hrest rfl ?_, rfl⟩
      · exact congrArg (fun k => ((s.occurs m).isMissing k, _)) (hreach' _ hcountM (hother m hroot))
      · unfold count at hcount ⊢
        simp [hcount]
    · rw [if_neg (fun hyes => hrest (hlast.1 hyes))]
      refine ⟨{ w with here := { f with matched := true }, outer := [] }, ?_,
        .between (done ++ [m]) rfl ?_ ?_, rfl⟩
      · exact congrArg (fun k => ((s.occurs m).isMissing k, _)) (hreach' _ rfl rfl)
      · exact ⟨rfl, hmembers', hcount, hceiling, hle', hceilings, hfresh⟩
      · exact fun _ => ⟨hrest, hsome⟩
  obtain ⟨w', hw', hcursor, hhere⟩ := hclosed
  rw [hw']
  refine .on hcursor (by rw [hhere]) ?_ ?_
  · simp [Occurs.isMissing]
  · intro ns
    rw [hends, CursorRest, hhere]
    simp [Occurs.isMissing]

/-- Nothing has matched up to the place behind a part. -/
theorem Parts.between (h : w.Parts s root f done (m :: f.rest))
    (hle : ∀ n ∈ (s.occurs m).max, w.count m ≤ n.toNat) (hunmatched : f.matched = false) :
    AtCursor s root { w with here := f, outer := [] } := by
  refine .between (done ++ [m]) rfl ?_ ?_
  · refine ⟨h.group, ?_, h.count_root, h.ceiling_root, ?_, h.ceilings, h.fresh⟩
    · rw [h.members]
      simp
    · intro x hx n hn
      rcases List.mem_append.1 hx with hx | hx
      · exact h.le_max x hx n hn
      · rw [List.mem_singleton.1 hx] at hn ⊢
        exact hle n hn
  · intro hyes
    rw [hunmatched] at hyes
    cases hyes

/-- The end of a part, with what is still to come behind it. -/
theorem Parts.closes (hs : s.Built) (hg : s.IsOnceThrough root)
    (h : w.Parts s root f done (m :: f.rest))
    (hle : ∀ n ∈ (s.occurs m).max, w.count m ≤ n.toNat) (hreach : w.reach m = w.count m)
    (hmatched : f.matched = true → ∃ x ∈ done ++ [m], 0 < w.count x) (outer : List Frame) :
    ClosesPart s root f m (w.count m) (closeItem s [] m { w with here := f, outer := outer }) := by
  by_cases hcounted : f.matched = true ∨ 0 < w.count m
  · exact h.closes_counted hs hg hle hreach hmatched hcounted outer
  have hunmatched : f.matched = false := by
    cases hf : f.matched with
    | true => exact absurd (.inl hf) hcounted
    | false => rfl
  have hzero : w.count m = 0 := by
    have hnot : ¬0 < w.count m := fun hpos => hcounted (.inr hpos)
    omega
  have hempty := hg.isEmptiable_part hs h.members
  have hseq : (s.group f.group).compositor = .sequence := by
    rw [h.group]
    exact hg.compositor
  have hends : ∀ ns, PartEnds s root f m (w.count m) ns ↔ (s.occurs m).min.toNat = 0 ∧
      s.Row s.occurs f.rest ns ∨ ns = [] ∧ (s.group root).occurs.min.toNat = 0 := by
    intro ns
    simp [PartEnds, hzero, hunmatched]
  by_cases hmin : (s.occurs m).min.toNat = 0
  · -- the part need not be there
    rw [closeItem_emptiable (w := { w with here := f, outer := outer }) hseq hunmatched hzero
      (hempty.2 hmin)]
    refine .on (h.between hle hunmatched) rfl (by simp) ?_
    intro ns
    rw [hends]
    simp [CursorRest, hmin, hunmatched]
  · have hnot : s.isEmptiable m = false := by
      by_contra hno
      exact hmin (hempty.1 (by simpa using hno))
    have hroot : reach { w with here := f, outer := outer } (.group root) = 0 := by
      have hcount := h.count_root
      unfold count at hcount
      unfold reach
      rw [hcount, h.ceiling_root]
      rfl
    rw [closeItem_unmatched (w := { w with here := f, outer := outer }) hseq hunmatched hzero hnot]
    simp only [hereMember, h.group, hroot]
    by_cases hzeroRoot : (s.group root).occurs.min.toNat = 0
    · -- nothing is there, and nothing need be
      rw [if_pos (by omega)]
      refine .past h.group h.count_root hzeroRoot ?_
      intro ns
      rw [hends]
      simp [hmin, hzeroRoot]
    · rw [if_neg (by omega)]
      refine .on (h.between hle hunmatched) rfl (by omega) ?_
      intro ns
      rw [hends]
      simp [hmin, hzeroRoot]

end Walk

end Conform
