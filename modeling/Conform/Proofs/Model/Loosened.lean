import Conform.Proofs.Model.Steps
import Conform.Proofs.Model.Words
/-!
# Content with loosened bounds

A walk stays on an alternative of a choice beyond its maximum, and takes the occurrences for several
repetitions of the choice. It compares the repetitions of the root group alone with their maximum.
So the maximum of an alternative binds no more where the choice is nested and has a maximum itself.
-/

namespace Conform

/-- The numbers of occurrences that one, two or more repetitions admit have no gap between them. -/
def Occurs.IsGapless (o : Occurs) : Prop := ∀ n ∈ o.max, 2 * o.min.toNat ≤ n.toNat + 1

instance (o : Occurs) : Decidable o.IsGapless :=
  Option.decidableForallMem o.max

namespace Components

/-- The particles of the content of a group: the group itself and the members of groups in it. -/
inductive Contains (c : Components) (root : GroupId) : Member → Prop
  | root : Contains c root (.group root)
  | member {g : GroupId} {m : Member} :
      Contains c root (.group g) → m ∈ (c.group g).members → Contains c root m

/-- Bounded groups that may be counted beyond their maximum: choices of an element between whose
bounds there is a choice, and groups around them. -/
inductive Overruns (c : Components) : GroupId → Prop
  | leaf {g : GroupId} {m : Member} : (c.group g).occurs.max ≠ none →
      (c.group g).compositor = .choice → m ∈ (c.group g).members → m.isGroup = false →
      (c.occurs m).isAmbiguous = true → (c.occurs m).max ≠ none → Overruns c g
  | group {g sub : GroupId} : (c.group g).occurs.max ≠ none →
      .group sub ∈ (c.group g).members → Overruns c sub → Overruns c g

/-- Whether the maximum of a member is not kept: an alternative of a choice that is bounded and
nested. -/
def isLoosened (c : Components) (root : GroupId) (m : Member) : Bool :=
  !m.isGroup && (c.occurs m).isAmbiguous && (c.occurs m).max.isSome &&
    (c.parent? m).any fun g =>
      g ≠ root && (c.group g).compositor = .choice && (c.group g).occurs.max.isSome

/-- The bounds that are kept. -/
def loosened (c : Components) (root : GroupId) (m : Member) : Occurs :=
  if c.isLoosened root m then { c.occurs m with max := none } else c.occurs m

variable {c : Components} {root g sub : GroupId} {m : Member}

/-! ## The particles of a content -/

theorem Contains.index_le (hc : c.Forest) (h : c.Contains root m) :
    ∀ g, m = .group g → g.index ≤ root.index := by
  induction h with
  | root =>
      intro g hg
      rw [Member.group.inj hg]
  | member _ hm ih =>
      intro g hg
      rw [hg] at hm
      have hlt := hc.index_lt hm
      have hle := ih _ rfl
      omega

/-- The root group is no member of a group in it. -/
theorem Contains.ne_root (hc : c.Forest) (h : c.Contains root (.group g))
    (hsub : .group sub ∈ (c.group g).members) : sub ≠ root := by
  intro heq
  have hlt := hc.index_lt hsub
  have hle := h.index_le hc g rfl
  rw [heq] at hlt
  omega

/-! ## Loosened bounds -/

@[simp] theorem loosened_group (c : Components) (root g : GroupId) :
    c.loosened root (.group g) = (c.group g).occurs := by
  simp [loosened, isLoosened, Member.isGroup, occurs]

@[simp] theorem min_loosened (c : Components) (root : GroupId) (m : Member) :
    (c.loosened root m).min = (c.occurs m).min := by
  unfold loosened
  split <;> rfl

theorem loosened_of_false (h : c.isLoosened root m = false) :
    c.loosened root m = c.occurs m := by
  rw [loosened, h]
  rfl

/-- A maximum that is kept is that of the member. -/
theorem mem_max_of_loosened {n : UInt32} (h : n ∈ (c.loosened root m).max) :
    n ∈ (c.occurs m).max := by
  unfold loosened at h
  split at h
  · cases h
  · exact h

/-- The alternatives of a bounded and nested choice are loosened. -/
theorem max_loosened (hc : c.Forest) (hm : m ∈ (c.group g).members) (hleaf : m.isGroup = false)
    (hchoice : (c.group g).compositor = .choice) (hambiguous : (c.occurs m).isAmbiguous = true)
    (hroot : g ≠ root) (hmax : (c.group g).occurs.max ≠ none) :
    (c.loosened root m).max = none := by
  have howner := hc.owner hm
  have hsome : (c.group g).occurs.max.isSome = true := Option.isSome_iff_ne_none.2 hmax
  cases hn : (c.occurs m).max with
  | none =>
      have hno : c.isLoosened root m = false := by simp [isLoosened, hn]
      rw [loosened_of_false hno, hn]
  | some n =>
      have hyes : c.isLoosened root m = true := by
        simp [isLoosened, hleaf, hambiguous, hn, howner, hroot, hchoice, hsome]
      rw [loosened, if_pos hyes]

/-! ## Words with other bounds -/

section

variable {b b' : Member → Occurs}

mutual

/-- Bounds that admit more for the particles of a content have more words. -/
theorem Words.mono (hmore : ∀ m, c.Contains root m → ∀ n, (b m).Admits n → (b' m).Admits n)
    {m : Member} {w : List QName} (hm : c.Contains root m) : c.Words b m w → c.Words b' m w
  | .intro hadmits htimes => .intro (hmore m hm _ hadmits) (htimes.mono hmore hm)

theorem Times.mono (hmore : ∀ m, c.Contains root m → ∀ n, (b m).Admits n → (b' m).Admits n)
    {m : Member} {n : Nat} {w : List QName} (hm : c.Contains root m) :
    c.Times b m n w → c.Times b' m n w
  | .zero => .zero
  | .succ honce hrest => .succ (honce.mono hmore hm) (hrest.mono hmore hm)

theorem Once.mono (hmore : ∀ m, c.Contains root m → ∀ n, (b m).Admits n → (b' m).Admits n)
    {m : Member} {w : List QName} (hm : c.Contains root m) : c.Once b m w → c.Once b' m w
  | .leaf hn => .leaf hn
  | .sequence hg hrow => .sequence hg (hrow.mono hmore fun _ hx => hm.member hx)
  | .choice hg hx hword => .choice hg hx (hword.mono hmore (hm.member hx))
  | .all hg hperm hrow =>
      .all hg hperm (hrow.mono hmore fun _ hx => hm.member (hperm.subset hx))

theorem Row.mono (hmore : ∀ m, c.Contains root m → ∀ n, (b m).Admits n → (b' m).Admits n)
    {ms : List Member} {w : List QName} (hms : ∀ m ∈ ms, c.Contains root m) :
    c.Row b ms w → c.Row b' ms w
  | .nil => .nil
  | .cons hword hrest =>
      .cons (hword.mono hmore (hms _ (List.mem_cons_self ..)))
        (hrest.mono hmore fun _ hx => hms _ (List.mem_cons_of_mem _ hx))

end

/-- Bounds that are the same for all particles of a content have the same words. -/
theorem Words.congr (hsame : ∀ m, c.Contains root m → b m = b' m) {m : Member} {w : List QName}
    (hm : c.Contains root m) (h : c.Words b m w) : c.Words b' m w :=
  h.mono (fun m hm _ hadmits => hsame m hm ▸ hadmits) hm

end

end Components

namespace Schema

open Components

/-- Choices whose bounds leave no gap where the walk counts several repetitions at once, and that
have a member if they must occur. -/
structure IsGapless (s : Schema) (root : GroupId) : Prop where
  members_ne_nil : ∀ g, s.Contains root (.group g) → (s.group g).compositor = .choice →
    (s.group g).occurs.min ≠ 0 → (s.group g).members ≠ []
  leaf : ∀ g m, s.Contains root (.group g) → (s.group g).compositor = .choice →
    m ∈ (s.group g).members → m.isGroup = false → (s.occurs m).isAmbiguous = true →
    (s.occurs m).IsGapless
  group : ∀ g sub, s.Contains root (.group g) → (s.group g).compositor = .choice →
    .group sub ∈ (s.group g).members → s.Overruns sub → (s.group sub).occurs.IsGapless

namespace Built

variable {s : Schema} {root g : GroupId} {m : Member}

theorem min_le_loosened (h : s.Built) (root : GroupId) (m : Member) :
    ∀ n ∈ (s.loosened root m).max, (s.loosened root m).min.toNat ≤ n.toNat := by
  intro n hn
  rw [min_loosened]
  exact h.min_le_max m n (mem_max_of_loosened hn)

end Built

end Schema

end Conform
