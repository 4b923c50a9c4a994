import Conform.Proofs.Model.Bulk
/-!
# Derivations

A word of a particle can be made up in several ways. A derivation tells one of them: it gives each
name of the word the leaf that it is an occurrence of. The words of a particle are those that have a
derivation, and all leaves of a derivation are in the particle.
-/

namespace Conform.Components

section

variable (c : Components) (b : Member → Occurs)

mutual

/-- Derivations of as many occurrences of a member as its bounds admit: names with their leaves. -/
inductive Derives : Member → List (QName × Member) → Prop
  | intro {m : Member} {n : Nat} {d : List (QName × Member)} :
      (b m).Admits n → DerivesTimes m n d → Derives m d

/-- Derivations of a number of occurrences of a member, one after the other. -/
inductive DerivesTimes : Member → Nat → List (QName × Member) → Prop
  | zero {m : Member} : DerivesTimes m 0 []
  | succ {m : Member} {n : Nat} {d e : List (QName × Member)} :
      DerivesOnce m d → DerivesTimes m n e → DerivesTimes m (n + 1) (d ++ e)

/-- Derivations of one occurrence of a member. The members of an `all` group come in any order. -/
inductive DerivesOnce : Member → List (QName × Member) → Prop
  | leaf {m : Member} {n : QName} : c.passes m n = true → DerivesOnce m [(n, m)]
  | sequence {g : GroupId} {d : List (QName × Member)} : (c.group g).compositor = .sequence →
      DerivesRow (c.group g).members d → DerivesOnce (.group g) d
  | choice {g : GroupId} {m : Member} {d : List (QName × Member)} :
      (c.group g).compositor = .choice → m ∈ (c.group g).members → Derives m d →
      DerivesOnce (.group g) d
  | all {g : GroupId} {ms : List Member} {d : List (QName × Member)} :
      (c.group g).compositor = .all → ms.Perm (c.group g).members → DerivesRow ms d →
      DerivesOnce (.group g) d

/-- Derivations of some members, one after the other. -/
inductive DerivesRow : List Member → List (QName × Member) → Prop
  | nil : DerivesRow [] []
  | cons {m : Member} {ms : List Member} {d e : List (QName × Member)} :
      Derives m d → DerivesRow ms e → DerivesRow (m :: ms) (d ++ e)

end

end

variable {c : Components} {b : Member → Occurs}

/-! ## Words and derivations -/

mutual

theorem Words.derives {m : Member} {w : List QName} :
    c.Words b m w → ∃ d, d.map Prod.fst = w ∧ c.Derives b m d
  | .intro hadmits htimes =>
      let ⟨d, hd, hderives⟩ := htimes.derives
      ⟨d, hd, .intro hadmits hderives⟩

theorem Times.derives {m : Member} {n : Nat} {w : List QName} :
    c.Times b m n w → ∃ d, d.map Prod.fst = w ∧ c.DerivesTimes b m n d
  | .zero => ⟨[], rfl, .zero⟩
  | .succ honce hrest =>
      let ⟨d, hd, honce⟩ := honce.derives
      let ⟨e, he, hrest⟩ := hrest.derives
      ⟨d ++ e, by rw [List.map_append, hd, he], .succ honce hrest⟩

theorem Once.derives {m : Member} {w : List QName} :
    c.Once b m w → ∃ d, d.map Prod.fst = w ∧ c.DerivesOnce b m d
  | .leaf (n := n) hn => ⟨[(n, m)], rfl, .leaf hn⟩
  | .sequence hg hrow =>
      let ⟨d, hd, hrow⟩ := hrow.derives
      ⟨d, hd, .sequence hg hrow⟩
  | .choice hg hm hword =>
      let ⟨d, hd, hword⟩ := hword.derives
      ⟨d, hd, .choice hg hm hword⟩
  | .all hg hperm hrow =>
      let ⟨d, hd, hrow⟩ := hrow.derives
      ⟨d, hd, .all hg hperm hrow⟩

theorem Row.derives {ms : List Member} {w : List QName} :
    c.Row b ms w → ∃ d, d.map Prod.fst = w ∧ c.DerivesRow b ms d
  | .nil => ⟨[], rfl, .nil⟩
  | .cons hword hrest =>
      let ⟨d, hd, hword⟩ := hword.derives
      let ⟨e, he, hrest⟩ := hrest.derives
      ⟨d ++ e, by rw [List.map_append, hd, he], .cons hword hrest⟩

end

mutual

theorem Derives.words {m : Member} {d : List (QName × Member)} :
    c.Derives b m d → c.Words b m (d.map Prod.fst)
  | .intro hadmits htimes => .intro hadmits htimes.words

theorem DerivesTimes.words {m : Member} {n : Nat} {d : List (QName × Member)} :
    c.DerivesTimes b m n d → c.Times b m n (d.map Prod.fst)
  | .zero => .zero
  | .succ honce hrest => List.map_append ▸ .succ honce.words hrest.words

theorem DerivesOnce.words {m : Member} {d : List (QName × Member)} :
    c.DerivesOnce b m d → c.Once b m (d.map Prod.fst)
  | .leaf hn => .leaf hn
  | .sequence hg hrow => .sequence hg hrow.words
  | .choice hg hm hword => .choice hg hm hword.words
  | .all hg hperm hrow => .all hg hperm hrow.words

theorem DerivesRow.words {ms : List Member} {d : List (QName × Member)} :
    c.DerivesRow b ms d → c.Row b ms (d.map Prod.fst)
  | .nil => .nil
  | .cons hword hrest => List.map_append ▸ .cons hword.words hrest.words

end

/-- The words of a member are those with a derivation. -/
theorem words_iff_derives {m : Member} {w : List QName} :
    c.Words b m w ↔ ∃ d, d.map Prod.fst = w ∧ c.Derives b m d := by
  constructor
  · exact Words.derives
  · rintro ⟨d, rfl, hd⟩
    exact hd.words

/-! ## The leaves of a derivation -/

/-- A member is in itself, and in a group if that contains it. -/
def Covers (c : Components) : Member → Member → Prop
  | .group g, x => c.Contains g x
  | m, x => x = m

theorem covers_self (m : Member) : c.Covers m m := by
  cases m with
  | group g => exact .root
  | element e => rfl
  | wildcard w => rfl

theorem Covers.group {g : GroupId} {m x : Member} (hm : m ∈ (c.group g).members)
    (hx : c.Covers m x) : c.Covers (.group g) x := by
  have hmember : c.Contains g m := .member .root hm
  cases m with
  | group sub => exact hmember.trans hx
  | element e => exact (show x = _ from hx) ▸ hmember
  | wildcard w => exact (show x = _ from hx) ▸ hmember

/-- What is in a group is in one of its members only. -/
theorem Covers.unique (h : c.Forest) {g : GroupId} {m m' x : Member} (hm : m ∈ (c.group g).members)
    (hm' : m' ∈ (c.group g).members) (hx : c.Covers m x) (hx' : c.Covers m' x) : m = m' := by
  by_contra hne
  have hleaf : ∀ {a : GroupId} {y : Member}, .group a ∈ (c.group g).members →
      y ∈ (c.group g).members → y.isGroup = false → x = y → ¬ c.Contains a x :=
    fun ha hy hgroup heq => heq ▸ Contains.not_leaf h ha hy hgroup
  cases m with
  | group a =>
      cases m' with
      | group b => exact Contains.disjoint h hm hm' (fun heq => hne (congrArg _ heq)) hx hx'
      | element e => exact hleaf hm hm' rfl hx' hx
      | wildcard w => exact hleaf hm hm' rfl hx' hx
  | element e =>
      cases m' with
      | group b => exact hleaf hm' hm rfl hx hx'
      | element e' => exact hne (hx.symm.trans hx')
      | wildcard w => exact hne (hx.symm.trans hx')
  | wildcard w =>
      cases m' with
      | group b => exact hleaf hm' hm rfl hx hx'
      | element e => exact hne (hx.symm.trans hx')
      | wildcard w' => exact hne (hx.symm.trans hx')

mutual

/-- The leaves of a derivation are in the member that it is of. -/
theorem Derives.covers {m : Member} {d : List (QName × Member)} {a : QName × Member} :
    c.Derives b m d → a ∈ d → c.Covers m a.2
  | .intro _ htimes => htimes.covers

theorem DerivesTimes.covers {m : Member} {n : Nat} {d : List (QName × Member)}
    {a : QName × Member} : c.DerivesTimes b m n d → a ∈ d → c.Covers m a.2
  | .zero => nofun
  | .succ honce hrest => fun ha => (List.mem_append.1 ha).elim honce.covers hrest.covers

theorem DerivesOnce.covers {m : Member} {d : List (QName × Member)} {a : QName × Member} :
    c.DerivesOnce b m d → a ∈ d → c.Covers m a.2
  | .leaf _ => fun ha => List.mem_singleton.1 ha ▸ covers_self m
  | .sequence _ hrow => fun ha =>
      let ⟨_, hx, hcovers⟩ := hrow.covers ha
      hcovers.group hx
  | .choice _ hx hword => fun ha => (hword.covers ha).group hx
  | .all _ hperm hrow => fun ha =>
      let ⟨_, hx, hcovers⟩ := hrow.covers ha
      hcovers.group (hperm.subset hx)

theorem DerivesRow.covers {ms : List Member} {d : List (QName × Member)} {a : QName × Member} :
    c.DerivesRow b ms d → a ∈ d → ∃ x ∈ ms, c.Covers x a.2
  | .nil => nofun
  | .cons hword hrest => fun ha => (List.mem_append.1 ha).elim
      (fun ha => ⟨_, List.mem_cons_self, hword.covers ha⟩)
      (fun ha =>
        let ⟨x, hx, hcovers⟩ := hrest.covers ha
        ⟨x, List.mem_cons_of_mem _ hx, hcovers⟩)

end

end Conform.Components
