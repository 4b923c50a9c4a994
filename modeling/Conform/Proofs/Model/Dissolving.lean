import Conform.Proofs.Model.Bulk
import Conform.Proofs.Model.Steady
import Conform.Proofs.Schema.Traversal
/-!
# Models with groups dissolved

A traversal that is not deep gives the members of a group, with those dissolved that are held to mean
nothing. Each is judged by the group that it stands in, not by the one whose list it ends up in. The
model has the words that it had where every dissolved group has a single member or the compositor of
the list, and where no dissolved group without members stands for what the list cannot express.
-/

namespace Conform

namespace Components

variable (c : Components) (b : Member → Occurs)

/-- Words of one occurrence of a model with a compositor and members. -/
def Combined : Compositor → List Member → List QName → Prop
  | .sequence, ms, w => c.Row b ms w
  | .choice, ms, w => ∃ m ∈ ms, c.Words b m w
  | .all, ms, w => ∃ ms', ms'.Perm ms ∧ c.Row b ms' w

/-- Words of a model with a compositor, bounds and members. -/
def ModelWords (compositor : Compositor) (o : Occurs) (ms : List Member) (w : List QName) : Prop :=
  ∃ ws : List (List QName), o.Admits ws.length ∧ ws.flatten = w ∧
    ∀ u ∈ ws, c.Combined b compositor ms u

variable {c b} {g : GroupId} {m : Member} {w : List QName}

theorem once_iff_combined :
    c.Once b (.group g) w ↔ c.Combined b (c.group g).compositor (c.group g).members w := by
  constructor
  · intro h
    cases h with
    | leaf hn => cases hn
    | sequence hc hrow =>
        rw [hc]
        exact hrow
    | choice hc hm hword =>
        rw [hc]
        exact ⟨_, hm, hword⟩
    | all hc hperm hrow =>
        rw [hc]
        exact ⟨_, hperm, hrow⟩
  · intro h
    cases hc : (c.group g).compositor with
    | sequence =>
        rw [hc] at h
        exact .sequence hc h
    | choice =>
        rw [hc] at h
        obtain ⟨m, hm, hword⟩ := h
        exact .choice hc hm hword
    | all =>
        rw [hc] at h
        obtain ⟨ms, hperm, hrow⟩ := h
        exact .all hc hperm hrow

/-- Words of some occurrences are put together from those of single ones. -/
theorem times_iff_exists {n : Nat} : c.Times b m n w ↔
    ∃ ws : List (List QName), ws.length = n ∧ ws.flatten = w ∧ ∀ u ∈ ws, c.Once b m u := by
  constructor
  · induction n generalizing w with
    | zero =>
        intro h
        exact ⟨[], rfl, h.eq_nil.symm, by simp⟩
    | succ n ih =>
        intro h
        cases h with
        | @succ _ _ u v honce hrest =>
            obtain ⟨ws, rfl, rfl, hws⟩ := ih hrest
            exact ⟨u :: ws, rfl, rfl, List.forall_mem_cons.2 ⟨honce, hws⟩⟩
  · rintro ⟨ws, rfl, rfl, hws⟩
    exact .ofList hws

/-- The words of a group are those of the model with its own members. -/
theorem words_iff_modelWords : c.Words b (.group g) w ↔
    c.ModelWords b (c.group g).compositor (b (.group g)) (c.group g).members w := by
  constructor
  · intro h
    cases h with
    | intro hadmits htimes =>
        obtain ⟨ws, rfl, rfl, hws⟩ := times_iff_exists.1 htimes
        exact ⟨ws, hadmits, rfl, fun u hu => once_iff_combined.1 (hws u hu)⟩
  · rintro ⟨ws, hadmits, rfl, hws⟩
    exact .intro hadmits (times_iff_exists.2
      ⟨ws, rfl, rfl, fun u hu => once_iff_combined.2 (hws u hu)⟩)

/-- A group that occurs once has the words of one occurrence. -/
theorem words_iff_once (hb : b m = Occurs.once) : c.Words b m w ↔ c.Once b m w := by
  constructor
  · intro h
    cases h with
    | @intro _ n _ hadmits htimes =>
        rw [hb] at hadmits
        obtain rfl : n = 1 := Nat.le_antisymm (hadmits.2 1 rfl) hadmits.1
        obtain ⟨ws, hlength, rfl, hws⟩ := times_iff_exists.1 htimes
        obtain ⟨u, rfl⟩ := List.length_eq_one_iff.1 hlength
        rw [List.flatten_singleton]
        exact hws u (List.mem_singleton_self u)
  · intro h
    refine .intro (n := 1) ?_ h.times
    rw [hb]
    decide

theorem row_singleton_iff : c.Row b [m] w ↔ c.Words b m w := by
  rw [row_cons_iff]
  constructor
  · rintro ⟨u, v, rfl, hu, hv⟩
    rw [row_nil_iff.1 hv, List.append_nil]
    exact hu
  · intro h
    exact ⟨w, [], (List.append_nil w).symm, h, .nil⟩

theorem row_append_iff {xs ys : List Member} :
    c.Row b (xs ++ ys) w ↔ ∃ u v, w = u ++ v ∧ c.Row b xs u ∧ c.Row b ys v := by
  constructor
  · induction xs generalizing w with
    | nil => exact fun h => ⟨[], w, rfl, .nil, h⟩
    | cons x xs ih =>
        intro h
        obtain ⟨t, w', rfl, ht, hw'⟩ := row_cons_iff.1 h
        obtain ⟨u, v, rfl, hu, hv⟩ := ih hw'
        exact ⟨t ++ u, v, (List.append_assoc ..).symm, .cons ht hu, hv⟩
  · rintro ⟨u, v, rfl, hu, hv⟩
    exact hu.append hv

/-- The compositor of a single member makes no difference. -/
theorem combined_singleton_iff (compositor : Compositor) :
    c.Combined b compositor [m] w ↔ c.Words b m w := by
  cases compositor with
  | sequence => exact row_singleton_iff
  | choice => simp [Combined]
  | all =>
      simp only [Combined, List.perm_singleton]
      constructor
      · rintro ⟨ms, rfl, hrow⟩
        exact row_singleton_iff.1 hrow
      · exact fun h => ⟨[m], rfl, row_singleton_iff.2 h⟩

/-- Each member may be replaced by members that make up its words. -/
theorem row_flatMap_iff {ms : List Member} {f : Member → List Member}
    (h : ∀ m ∈ ms, ∀ w, c.Row b (f m) w ↔ c.Words b m w) :
    c.Row b (ms.flatMap f) w ↔ c.Row b ms w := by
  induction ms generalizing w with
  | nil => rfl
  | cons m ms ih =>
      have hrest := fun w => ih (w := w) fun x hx => h x (List.mem_cons_of_mem _ hx)
      rw [List.flatMap_cons, row_append_iff, row_cons_iff]
      simp only [h m List.mem_cons_self, hrest]

end Components

namespace Listed

/-- Without failures everything is listed. -/
theorem concat_eq {ms : List Member} {f : Member → Listed} (h : ∀ m ∈ ms, (f m).failure = none) :
    concat (ms.map f) = ⟨ms.flatMap fun m => (f m).members, none⟩ := by
  induction ms with
  | nil => rfl
  | cons m ms ih =>
      have hrest := ih fun x hx => h x (List.mem_cons_of_mem _ hx)
      change (f m).append (concat (ms.map f)) = _
      rw [hrest, append, h m List.mem_cons_self]
      rfl

end Listed

namespace Schema

open Components

/-- The groups that are dissolved where the members of a group are listed. -/
inductive Dissolved (s : Schema) (r : GroupId) : GroupId → Prop
  | member {g : GroupId} : .group g ∈ (s.group r).members →
      (s.group g).isPointless (s.group r).compositor = true → Dissolved s r g
  | nested {p g : GroupId} : Dissolved s r p → .group g ∈ (s.group p).members →
      (s.group g).isPointless (s.group p).compositor = true → Dissolved s r g

/-- A choice of nothing that must occur. -/
def IsBarren (s : Schema) (g : GroupId) : Prop :=
  (s.group g).compositor = .choice ∧ (s.group g).occurs.min ≠ 0

/-- The model is empty anyway, or one of its members is. -/
def CanSkip (s : Schema) (r : GroupId) : Prop :=
  (s.group r).occurs.min = 0 ∨ ∃ m ∈ (s.iterModel r).members, s.Words s.occurs m []

/-- What is dissolved means nothing: a group of several members combines them as the list does, and
one without members can be left out. -/
structure DissolvesWell (s : Schema) (r : GroupId) : Prop where
  compositor_eq : ∀ g, s.Dissolved r g → 1 < (s.group g).members.length →
    (s.group g).compositor = (s.group r).compositor
  sequence : (s.group r).compositor = .sequence → ∀ g, s.Dissolved r g →
    (s.group g).members = [] → ¬s.IsBarren g
  choice : (s.group r).compositor = .choice → ∀ g, s.Dissolved r g →
    (s.group g).members = [] → s.IsBarren g ∨ s.CanSkip r

variable {s : Schema} {r p g : GroupId} {m : Member} {w : List QName}

/-! ## The words of what is dissolved -/

theorem words_of_members_eq_nil (hs : s.Built) (hnil : (s.group g).members = []) :
    s.Words s.occurs (.group g) w ↔ w = [] ∧ ¬s.IsBarren g := by
  have honce : ∀ u, s.Once s.occurs (.group g) u ↔ u = [] ∧ (s.group g).compositor ≠ .choice := by
    intro u
    rw [once_iff_combined, hnil]
    cases (s.group g).compositor <;> simp [Combined, row_nil_iff]
  rw [IsBarren]
  constructor
  · intro h
    cases h with
    | @intro _ n _ hadmits htimes =>
        obtain ⟨ws, rfl, rfl, hws⟩ := times_iff_exists.1 htimes
        refine ⟨List.flatten_eq_nil_iff.2 fun u hu => ((honce u).1 (hws u hu)).1, ?_⟩
        rintro ⟨hchoice, hmin⟩
        cases ws with
        | nil => exact hmin (UInt32.toNat_inj.1 (Nat.le_zero.1 hadmits.1))
        | cons u ws => exact ((honce u).1 (hws u List.mem_cons_self)).2 hchoice
  · rintro ⟨rfl, hbarren⟩
    by_cases hmin : (s.group g).occurs.min = 0
    · refine .intro (n := 0) ⟨?_, fun _ _ => Nat.zero_le _⟩ .zero
      exact Nat.le_of_eq (congrArg UInt32.toNat hmin)
    · have hempty := (honce []).2 ⟨rfl, fun hchoice => hbarren ⟨hchoice, hmin⟩⟩
      exact .intro ⟨Nat.le_refl _, hs.min_le_max _⟩ (Times.pad hempty .zero (Nat.zero_le _))

/-- A dissolved group is pointless in the group that it is a member of. -/
theorem Dissolved.exists_outer (h : s.Dissolved r g) : ∃ p, s.Contains r (.group p) ∧
    .group g ∈ (s.group p).members ∧ (s.group g).isPointless (s.group p).compositor = true := by
  induction h with
  | member hg hpointless => exact ⟨r, .root, hg, hpointless⟩
  | @nested p _ _ hg hpointless ih =>
      obtain ⟨outer, hcontains, hp, -⟩ := ih
      exact ⟨p, hcontains.member hp, hg, hpointless⟩

/-- A dissolved group with members has the words that they have in the list. -/
theorem Dissolved.words_iff (h : s.Dissolved r g) (hwell : s.DissolvesWell r)
    (hmembers : (s.group g).members ≠ []) : s.Words s.occurs (.group g) w ↔
      s.Combined s.occurs (s.group r).compositor (s.group g).members w := by
  obtain ⟨outer, -, -, hpointless⟩ := h.exists_outer
  have honce : (s.group g).occurs = Occurs.once := by
    unfold Group.isPointless at hpointless
    rw [if_neg (by simpa using hmembers)] at hpointless
    by_contra hne
    rw [if_pos hne] at hpointless
    cases hpointless
  rw [words_iff_once (m := .group g) honce, once_iff_combined]
  by_cases hone : (s.group g).members.length = 1
  · obtain ⟨m, hm⟩ := List.length_eq_one_iff.1 hone
    rw [hm, combined_singleton_iff, combined_singleton_iff]
  · have hpos := List.length_pos_of_ne_nil hmembers
    rw [hwell.compositor_eq g h (by omega)]

/-! ## What is listed -/

/-- A nested group that is within the bound does not fail. -/
theorem opened_failure {deep : Bool} : ∀ {room : Nat} {p : GroupId} {outer : Compositor},
    s.isWithin room p = true → ∀ m ∈ (s.group p).members,
      (s.opened deep room outer m).failure = none := by
  intro room
  induction room with
  | zero =>
      intro p outer hwithin m hm
      cases m with
      | element e => rw [opened_leaf _ rfl]
      | wildcard w => rw [opened_leaf _ rfl]
      | group g =>
          obtain ⟨_, heq, -⟩ := isWithin_of_nested hwithin hm
          cases heq
  | succ room ih =>
      intro p outer hwithin m hm
      cases m with
      | element e => rw [opened_leaf _ rfl]
      | wildcard w => rw [opened_leaf _ rfl]
      | group g =>
          by_cases hkept : (!deep && !(s.group g).isPointless outer) = true
          · rw [opened_kept _ hkept]
          by_cases hnever : (deep && (s.group g).occurs.isEmpty) = true
          · rw [opened_never _ hnever]
            rfl
          obtain ⟨_, heq, hwithin⟩ := isWithin_of_nested hwithin hm
          obtain rfl := Nat.succ.inj heq
          rw [opened_succ _ hkept hnever, openedAll, Listed.concat_eq (ih hwithin)]

theorem openedAll_of_isWithin {deep : Bool} {room : Nat} {outer : Compositor}
    (hwithin : s.isWithin room p = true) : s.openedAll deep room outer (s.group p).members =
      ⟨(s.group p).members.flatMap fun m => (s.opened deep room outer m).members, none⟩ :=
  Listed.concat_eq (opened_failure hwithin)

theorem iterModel_eq (hwithin : s.isWithin s.limits.maxModelDepth r = true) : s.iterModel r =
    ⟨(s.group r).members.flatMap fun m => (s.opened false s.limits.maxModelDepth
      (s.group r).compositor m).members, none⟩ := by
  obtain ⟨hfits, hpending⟩ := Traversal.pending_ofGroup (s := s) r false (by simp)
  rw [iterModel, Traversal.listed_eq hfits, hpending, openedAll_of_isWithin hwithin]

/-- What holds of a member that is listed as it is, and of a dissolved group with what its members
are listed as, holds of every member with what it is listed as. -/
theorem listed_induction {motive : Member → List Member → Prop} (kept : ∀ m, motive m [m])
    (dissolved : ∀ g f, s.Dissolved r g → (∀ m ∈ (s.group g).members, motive m (f m)) →
      motive (.group g) ((s.group g).members.flatMap f)) :
    ∀ {room : Nat} {p : GroupId}, p = r ∨ s.Dissolved r p → s.isWithin room p = true →
      ∀ m ∈ (s.group p).members, motive m (s.opened false room (s.group p).compositor m).members := by
  intro room
  induction room with
  | zero =>
      intro p hp hwithin m hm
      cases m with
      | element e =>
          rw [opened_leaf _ rfl]
          exact kept _
      | wildcard w =>
          rw [opened_leaf _ rfl]
          exact kept _
      | group g =>
          obtain ⟨_, heq, -⟩ := isWithin_of_nested hwithin hm
          cases heq
  | succ room ih =>
      intro p hp hwithin m hm
      cases m with
      | element e =>
          rw [opened_leaf _ rfl]
          exact kept _
      | wildcard w =>
          rw [opened_leaf _ rfl]
          exact kept _
      | group g =>
          cases hpointless : (s.group g).isPointless (s.group p).compositor with
          | false =>
              rw [opened_kept _ (by simp [hpointless])]
              exact kept _
          | true =>
              have hg : s.Dissolved r g := by
                rcases hp with rfl | hp
                · exact .member hm hpointless
                · exact .nested hp hm hpointless
              obtain ⟨_, heq, hgwithin⟩ := isWithin_of_nested hwithin hm
              obtain rfl := Nat.succ.inj heq
              rw [opened_succ _ (by simp [hpointless]) (by simp), openedAll_of_isWithin hgwithin]
              exact dissolved g _ hg (ih (.inr hg) hgwithin)

/-- In a sequence what is dissolved is listed as a row of its words. -/
theorem row_listed_iff (hs : s.Built) (hwell : s.DissolvesWell r)
    (hsequence : (s.group r).compositor = .sequence)
    (hwithin : s.isWithin s.limits.maxModelDepth r = true) :
    s.Row s.occurs (s.iterModel r).members w ↔ s.Row s.occurs (s.group r).members w := by
  rw [iterModel_eq hwithin]
  refine row_flatMap_iff (listed_induction (r := r) (motive := fun m ms =>
    ∀ w, s.Row s.occurs ms w ↔ s.Words s.occurs m w) (fun m w => row_singleton_iff) ?_ (.inl rfl)
    hwithin)
  intro g f hg hmembers w
  rw [row_flatMap_iff hmembers]
  by_cases hnil : (s.group g).members = []
  · rw [words_of_members_eq_nil hs hnil, hnil, row_nil_iff]
    exact (and_iff_left (hwell.sequence hsequence g hg hnil)).symm
  · rw [hg.words_iff hwell hnil, hsequence]
    rfl

/-- Two lists of alternatives have the same words, up to the empty one where it can be skipped. -/
def Replaces (s : Schema) (r : GroupId) (ms ms' : List Member) : Prop :=
  ∀ w, (s.Combined s.occurs .choice ms w → s.Combined s.occurs .choice ms' w) ∧
    (s.Combined s.occurs .choice ms' w → s.Combined s.occurs .choice ms w ∨ w = [] ∧ s.CanSkip r)

theorem Replaces.flatMap {ms : List Member} {f : Member → List Member}
    (h : ∀ m ∈ ms, s.Replaces r (f m) [m]) : s.Replaces r (ms.flatMap f) ms := by
  intro w
  constructor
  · rintro ⟨x, hx, hword⟩
    obtain ⟨m, hm, hx⟩ := List.mem_flatMap.1 hx
    exact ⟨m, hm, (combined_singleton_iff _).1 ((h m hm w).1 ⟨x, hx, hword⟩)⟩
  · rintro ⟨m, hm, hword⟩
    rcases (h m hm w).2 ((combined_singleton_iff _).2 hword) with ⟨x, hx, hword⟩ | hskip
    · exact .inl ⟨x, List.mem_flatMap.2 ⟨m, hm, hx⟩, hword⟩
    · exact .inr hskip

/-- In a choice what is dissolved is listed as alternatives for it. -/
theorem replaces_listed (hs : s.Built) (hwell : s.DissolvesWell r)
    (hchoice : (s.group r).compositor = .choice)
    (hwithin : s.isWithin s.limits.maxModelDepth r = true) :
    s.Replaces r (s.iterModel r).members (s.group r).members := by
  rw [iterModel_eq hwithin]
  refine .flatMap (listed_induction (r := r) (motive := fun m ms => s.Replaces r ms [m])
    (fun m w => ⟨id, .inl⟩) ?_ (.inl rfl) hwithin)
  intro g f hg hmembers w
  rw [combined_singleton_iff]
  by_cases hnil : (s.group g).members = []
  · rw [words_of_members_eq_nil hs hnil, hnil]
    refine ⟨fun ⟨x, hx, _⟩ => absurd hx List.not_mem_nil, ?_⟩
    rintro ⟨rfl, hbarren⟩
    exact .inr ⟨rfl, (hwell.choice hchoice g hg hnil).resolve_left hbarren⟩
  · rw [hg.words_iff hwell hnil, hchoice]
    exact Replaces.flatMap hmembers w

/-! ## The words of the model -/

/-- Empty occurrences are left out where the model can be empty. -/
theorem modelWords_of_skipped {ms : List Member} (hskip : s.CanSkip r)
    (hms : ms = (s.iterModel r).members) {ws : List (List QName)}
    (hadmits : (s.group r).occurs.Admits ws.length)
    (hws : ∀ u ∈ ws, s.Combined s.occurs .choice ms u ∨ u = []) :
    s.ModelWords s.occurs .choice (s.group r).occurs ms ws.flatten := by
  rcases hskip with hmin | hempty
  · refine ⟨ws.filter fun u => !u.isEmpty, ⟨?_, fun n hn => ?_⟩, ?_, fun u hu => ?_⟩
    · rw [hmin]
      exact Nat.zero_le _
    · exact (List.length_filter_le _ _).trans (hadmits.2 n hn)
    · exact List.flatten_filter_not_isEmpty
    · obtain ⟨hu, hne⟩ := List.mem_filter.1 hu
      exact (hws u hu).resolve_right fun hnil => by simp [hnil] at hne
  · refine ⟨ws, hadmits, rfl, fun u hu => (hws u hu).elim id ?_⟩
    rintro rfl
    rw [hms]
    exact hempty

/-- The members that a traversal lists make up a model with the words of the group, if what is
dissolved means nothing. -/
theorem Built.iterModel_words (hs : s.Built) (hall : (s.group r).compositor ≠ .all)
    (hwithin : s.isWithin s.limits.maxModelDepth r = true) (hwell : s.DissolvesWell r) :
    (s.iterModel r).failure = none ∧ ∀ w,
      s.ModelWords s.occurs (s.group r).compositor (s.group r).occurs (s.iterModel r).members w ↔
        s.Words s.occurs (.group r) w := by
  refine ⟨by rw [iterModel_eq hwithin], fun w => ?_⟩
  rw [words_iff_modelWords]
  cases hc : (s.group r).compositor with
  | all => exact absurd hc hall
  | sequence =>
      simp only [ModelWords, Combined, row_listed_iff hs hwell hc hwithin]
      rfl
  | choice =>
      have hreplaces := replaces_listed hs hwell hc hwithin
      constructor
      · rintro ⟨ws, hadmits, rfl, hws⟩
        exact ⟨ws, hadmits, rfl, fun u hu => (hreplaces u).1 (hws u hu)⟩
      · rintro ⟨ws, hadmits, rfl, hws⟩
        by_cases hskip : s.CanSkip r
        · exact modelWords_of_skipped hskip rfl hadmits fun u hu =>
            ((hreplaces u).2 (hws u hu)).imp_right And.left
        · exact ⟨ws, hadmits, rfl, fun u hu =>
            ((hreplaces u).2 (hws u hu)).resolve_right fun h => hskip h.2⟩

end Schema

/-- Any number of alternatives: nothing, an `a` or a sequence of a `b`, and a `c` before a `d`. -/
def dissolvingSample : Components :=
  (((((Components.withElements .v10 [("a", .once), ("b", .once), ("c", .once),
    ("d", .once)]).withGroup .sequence .once []).withGroup .sequence .once
    [.element ⟨1⟩]).withGroup .choice .once [.element ⟨0⟩, .group ⟨1⟩]).withGroup .sequence .once
    [.element ⟨2⟩, .element ⟨3⟩]).withGroup .choice ⟨0, none⟩ [.group ⟨0⟩, .group ⟨2⟩, .group ⟨3⟩]

/-- The `c` and the `d` stay together. -/
theorem iterModel_words_sample : dissolvingSample.schema.Built ∧
    dissolvingSample.schema.iterModel ⟨4⟩ = ⟨[.element ⟨0⟩, .element ⟨1⟩, .group ⟨3⟩], none⟩ ∧
    ∀ w, dissolvingSample.schema.ModelWords dissolvingSample.schema.occurs .choice ⟨0, none⟩
        [.element ⟨0⟩, .element ⟨1⟩, .group ⟨3⟩] w ↔
      dissolvingSample.schema.Words dissolvingSample.schema.occurs (.group ⟨4⟩) w := by
  have hs : dissolvingSample.schema.Built :=
    ((((((Components.assembled_withElements ..).withGroup ..).withGroup ..).withGroup
      ..).withGroup ..).withGroup ..).built (by decide +kernel)
  have hmodel : dissolvingSample.schema.iterModel ⟨4⟩ =
      ⟨[.element ⟨0⟩, .element ⟨1⟩, .group ⟨3⟩], none⟩ := by
    rw [Schema.iterModel_eq (by decide +kernel)]
    decide +kernel
  have hsame : ∀ p < 5, ∀ g ∈ dissolvingSample.schema.nested ⟨p⟩,
      (dissolvingSample.schema.group g).isPointless
        (dissolvingSample.schema.group ⟨p⟩).compositor = true →
      1 < (dissolvingSample.schema.group g).members.length →
      (dissolvingSample.schema.group g).compositor = .choice := by
    decide +kernel
  have hwell : dissolvingSample.schema.DissolvesWell ⟨4⟩ := by
    refine ⟨fun g hg hlength => ?_, fun hsequence => ?_, fun _ g _ _ => .inr (.inl rfl)⟩
    · obtain ⟨p, hp, hmem, hpointless⟩ := hg.exists_outer
      exact hsame p.index (Nat.lt_succ_of_le (hp.index_le hs.forest p rfl)) g
        (List.mem_filterMap.2 ⟨_, hmem, rfl⟩) hpointless hlength
    · cases hsequence
  have hwords := (hs.iterModel_words (r := ⟨4⟩) (by decide +kernel) (by decide +kernel) hwell).2
  rw [hmodel] at hwords
  exact ⟨hs, hmodel, hwords⟩

/-- A choice of a `d` and, in another sequence, a sequence of an `a` and a `b`. A choice of nothing
and a `c`. -/
def undoneSample : Components :=
  (((((Components.withElements .v10 [("a", .once), ("b", .once), ("c", .once),
    ("d", .once)]).withGroup .sequence .once [.element ⟨0⟩, .element ⟨1⟩]).withGroup .sequence .once
    [.group ⟨0⟩]).withGroup .choice .once [.group ⟨1⟩, .element ⟨3⟩]).withGroup .sequence .once
    []).withGroup .choice .once [.group ⟨3⟩, .element ⟨2⟩]

/-- The `a` and the `b` become alternatives, as if one of them were enough. To have no children is
no longer an alternative to the `c`. -/
theorem iterModel_undoes : undoneSample.schema.Built ∧
    (undoneSample.schema.iterModel ⟨2⟩ = ⟨[.element ⟨0⟩, .element ⟨1⟩, .element ⟨3⟩], none⟩ ∧
      undoneSample.schema.ModelWords undoneSample.schema.occurs .choice .once
        [.element ⟨0⟩, .element ⟨1⟩, .element ⟨3⟩] [.plain "a"] ∧
      ¬undoneSample.schema.Words undoneSample.schema.occurs (.group ⟨2⟩) [.plain "a"]) ∧
    (undoneSample.schema.iterModel ⟨4⟩ = ⟨[.element ⟨2⟩], none⟩ ∧
      undoneSample.schema.Words undoneSample.schema.occurs (.group ⟨4⟩) [] ∧
      ¬undoneSample.schema.ModelWords undoneSample.schema.occurs .choice .once [.element ⟨2⟩] []) := by
  have hs : undoneSample.schema.Built :=
    ((((((Components.assembled_withElements ..).withGroup ..).withGroup ..).withGroup
      ..).withGroup ..).withGroup ..).built (by decide +kernel)
  have helement : ∀ i < 4, ∀ w, undoneSample.schema.Words undoneSample.schema.occurs
      (.element ⟨i⟩) w ↔ ∃ n, w = [n] ∧ undoneSample.schema.passes (.element ⟨i⟩) n = true := by
    intro i hi w
    have honce : ∀ i < 4, undoneSample.schema.occurs (.element ⟨i⟩) = .once := by decide +kernel
    rw [Components.words_iff_once (honce i hi), Components.once_leaf_iff rfl]
  have hgroup : ∀ i < 5, ∀ w, undoneSample.schema.Words undoneSample.schema.occurs (.group ⟨i⟩) w ↔
      undoneSample.schema.Combined undoneSample.schema.occurs
        (undoneSample.schema.group ⟨i⟩).compositor (undoneSample.schema.group ⟨i⟩).members w := by
    intro i hi w
    have honce : ∀ i < 5, undoneSample.schema.occurs (.group ⟨i⟩) = .once := by decide +kernel
    rw [Components.words_iff_once (honce i hi), Components.once_iff_combined]
  refine ⟨hs, ⟨?_, ?_, ?_⟩, ?_, ?_, ?_⟩
  · rw [Schema.iterModel_eq (by decide +kernel)]
    decide +kernel
  · refine ⟨[[.plain "a"]], by decide, rfl, fun u hu => ?_⟩
    obtain rfl := List.mem_singleton.1 hu
    exact ⟨.element ⟨0⟩, List.mem_cons_self, (helement 0 (by decide) _).2 ⟨_, rfl, by decide +kernel⟩⟩
  · intro h
    obtain ⟨m, hm, hword⟩ := (hgroup 2 (by decide) _).1 h
    have hmembers : m = .group ⟨1⟩ ∨ m = .element ⟨3⟩ := by
      simpa using (show m ∈ [.group ⟨1⟩, .element ⟨3⟩] from hm)
    rcases hmembers with rfl | rfl
    · have houter : undoneSample.schema.Row _ [.group ⟨0⟩] _ := (hgroup 1 (by decide) _).1 hword
      have hinner : undoneSample.schema.Row _ [.element ⟨0⟩, .element ⟨1⟩] _ :=
        (hgroup 0 (by decide) _).1 (Components.row_singleton_iff.1 houter)
      obtain ⟨u, v, huv, hu, hv⟩ := Components.row_cons_iff.1 hinner
      obtain ⟨n, rfl, -⟩ := (helement 0 (by decide) u).1 hu
      obtain ⟨n', rfl, -⟩ := (helement 1 (by decide) v).1 (Components.row_singleton_iff.1 hv)
      cases huv
    · obtain ⟨n, hn, hpasses⟩ := (helement 3 (by decide) _).1 hword
      obtain rfl := (List.cons.inj hn).1
      exact absurd hpasses (by decide +kernel)
  · rw [Schema.iterModel_eq (by decide +kernel)]
    decide +kernel
  · rw [hgroup 4 (by decide)]
    exact ⟨.group ⟨3⟩, by decide +kernel, (hgroup 3 (by decide) _).2 .nil⟩
  · rintro ⟨ws, hadmits, hflatten, hws⟩
    obtain ⟨u, hu⟩ := List.exists_mem_of_length_pos hadmits.1
    obtain ⟨n, rfl, -⟩ :=
      (helement 2 (by decide) u).1 ((Components.combined_singleton_iff .choice).1 (hws u hu))
    exact List.cons_ne_nil _ _ (List.flatten_eq_nil_iff.1 hflatten _ hu)

end Conform
