import Conform.Name.Plain
import Conform.Proofs.Markup.Scoping
/-!
# Names as a scope writes them

A scope writes a name without a prefix if its namespace is the default one, and else with a prefix
that is bound to the namespace. What it writes is read back as the name, but for names without a
namespace: these have no prefix even if one is bound to no namespace, and a text without a prefix is
in the default namespace if there is one.
-/

namespace Conform

/-! ## Names of documents -/

/-- A text that can stand on either side of a colon. The names without a colon that documents may
use are among these. -/
def IsName (s : String) : Prop := s ≠ "" ∧ ':' ∉ s.toList

instance (s : String) : Decidable (IsName s) := inferInstanceAs (Decidable (_ ∧ _))

theorem isName_of_isPlainName {s : String} (h : isPlainName s.toList = true) : IsName s := by
  constructor
  · rintro rfl
    cases h
  · intro hcolon
    cases hs : s.toList with
    | nil => simp [hs] at hcolon
    | cons c rest =>
        simp only [hs, isPlainName, Bool.and_eq_true, List.all_eq_true] at h
        rcases List.mem_cons.1 (hs ▸ hcolon) with rfl | hrest
        · exact absurd h.1 (by decide +kernel)
        · exact absurd (h.2 ':' hrest) (by decide +kernel)

/-- The name of an element or attribute as a document has it, with a prefix or without one. -/
inductive IsWritten : String → Prop
  | plain {base : String} : IsName base → IsWritten base
  | prefixed {label base : String} : IsName label → IsName base → IsWritten (label ++ ":" ++ base)

theorem cut_colon {label : String} (h : ':' ∉ label.toList) (base : String) :
    Text.cut ':' (label ++ ":" ++ base).toList = some (label.toList, base.toList) := by
  simpa using Text.cut_append h base.toList

theorem isWritten_iff {s : String} : IsWritten s ↔
    match Text.cut ':' s.toList with
    | none => IsName s
    | some (label, base) => IsName (String.ofList label) ∧ IsName (String.ofList base) := by
  constructor
  · rintro (⟨hbase⟩ | ⟨hlabel, hbase⟩)
    · rw [Text.cut_eq_none hbase.2]
      exact hbase
    · rw [cut_colon hlabel.2]
      simpa using ⟨hlabel, hbase⟩
  · intro h
    split at h
    · exact .plain h
    · rename_i label base hcut
      have hs : s = String.ofList label ++ ":" ++ String.ofList base := by
        rw [← String.toList_inj, Text.eq_append_of_cut hcut]
        simp
      rw [hs]
      exact .prefixed h.1 h.2

instance (s : String) : Decidable (IsWritten s) :=
  match h : Text.cut ':' s.toList with
  | none => decidable_of_iff (IsName s) (by rw [isWritten_iff, h])
  | some (label, base) =>
    decidable_of_iff (IsName (String.ofList label) ∧ IsName (String.ofList base))
      (by rw [isWritten_iff, h])

namespace Scope

variable {s : Scope} {written label space : String} {n : QName}

/-- A scope that comes about by declarations, with names as prefixes. -/
inductive Declared : Scope → Prop
  | empty : Declared empty
  | bind {s : Scope} {label : String} : Declared s → IsName label → ∀ space,
    Declared (s.bind label space)
  | withDefault {s : Scope} : Declared s → ∀ space, Declared (s.withDefault space)

/-- The prefixes of such a scope are names. -/
theorem Declared.isName (h : s.Declared) (hspace : s.space? label = some space) :
    IsName label := by
  induction h with
  | empty => cases hspace
  | @bind s new _ hnew _ ih =>
      simp only [Scope.bind, space?, Listing.get?_insert] at hspace
      split at hspace
      · rename_i heq
        exact heq ▸ hnew
      · exact ih hspace
  | withDefault _ _ ih => exact ih hspace

/-! ## Prefixes of a namespace -/

theorem mem_of_foldl_lesser : ∀ {labels : List String} {best : Option String},
    labels.foldl lesser best = some label → best = some label ∨ label ∈ labels
  | [], _, h => .inl h
  | first :: rest, best, h => by
    rw [List.foldl_cons] at h
    rcases mem_of_foldl_lesser h with hbest | hrest
    · unfold lesser at hbest
      split at hbest
      · exact .inr (Option.some.inj hbest ▸ List.mem_cons_self)
      · split at hbest
        · exact .inr (Option.some.inj hbest ▸ List.mem_cons_self)
        · exact .inl hbest
    · exact .inr (List.mem_cons_of_mem _ hrest)

theorem isSome_foldl_lesser : ∀ {labels : List String} {best : Option String},
    best.isSome ∨ labels ≠ [] → (labels.foldl lesser best).isSome
  | [], _, h => h.resolve_right fun hne => hne rfl
  | first :: rest, best, _ => by
    rw [List.foldl_cons]
    refine isSome_foldl_lesser (.inl ?_)
    unfold lesser
    split
    · rfl
    · split <;> rfl

theorem mem_labels_iff : label ∈ (s.bindings.entries.filter fun e => e.2 = space).map Prod.fst ↔
    s.space? label = some space := by
  rw [space?, ← Listing.mem_entries_iff]
  simp

/-- A prefix for a namespace is the empty one for the default namespace, or one that is bound. -/
theorem label?_cases (h : s.label? space = some label) :
    label = "" ∧ s.defaultSpace = space ∨ s.space? label = some space := by
  unfold label? at h
  split at h
  · rename_i hdefault
    exact .inl ⟨(Option.some.inj h).symm, hdefault.2⟩
  · exact .inr (mem_labels_iff.1 ((mem_of_foldl_lesser h).resolve_left nofun))

/-- A namespace that is the default one or bound to a prefix has a prefix. -/
theorem isSome_label? (hspace : space ≠ "")
    (h : s.defaultSpace = space ∨ ∃ label, s.space? label = some space) :
    (s.label? space).isSome := by
  unfold label?
  split
  · rfl
  · rename_i hdefault
    obtain ⟨label, hlabel⟩ := h.resolve_left fun heq => hdefault ⟨hspace, heq⟩
    exact isSome_foldl_lesser (.inr (List.ne_nil_of_mem (mem_labels_iff.2 hlabel)))

/-! ## Writing and reading -/

/-- The namespace of a name that is read is the default one or bound to a prefix. -/
theorem Denotes.space_known (h : s.Denotes s.defaultSpace written n) :
    s.defaultSpace = n.space ∨ ∃ label, s.space? label = some n.space := by
  cases h with
  | prefixed _ hspace => exact .inr ⟨_, hspace⟩
  | plain => exact .inl rfl

/-- What is read of a written name has a name behind its prefix. -/
theorem Denotes.isName_base {unprefixed : String} (hwritten : IsWritten written)
    (h : s.Denotes unprefixed written n) : IsName n.base := by
  cases h with
  | prefixed hlabel =>
      rw [isWritten_iff, cut_colon hlabel] at hwritten
      simpa using hwritten.2
  | plain hbase =>
      rw [isWritten_iff, Text.cut_eq_none hbase] at hwritten
      exact hwritten

/-- A scope writes a name of a namespace that it knows with a prefix for the namespace, or without
one in the default namespace or none. -/
theorem Declared.write_denotes (hs : s.Declared) (hbase : IsName n.base)
    (hspace : s.defaultSpace = n.space ∨ ∃ label, s.space? label = some n.space) :
    s.Denotes s.defaultSpace (s.write n)
      ⟨if n.space = "" then s.defaultSpace else n.space, n.base⟩ := by
  unfold write
  split
  · exact .plain hbase.2
  · rename_i hsome
    obtain ⟨label, hlabel⟩ := Option.isSome_iff_exists.1 (isSome_label? hsome hspace)
    simp only [hlabel]
    rcases label?_cases hlabel with ⟨rfl, hdefault⟩ | hbound
    · rw [if_pos rfl, ← hdefault]
      exact .plain hbase.2
    · have hname := hs.isName hbound
      rw [if_neg hname.1]
      exact .prefixed hname.2 hbound

/-- A name that was read is written so that it is read with the same local name, in the default
namespace if it is in none. -/
theorem Declared.resolve_write (hs : s.Declared) (hwritten : IsWritten written)
    (h : s.resolve written = .ok n) : s.resolve (s.write n) =
      .ok ⟨if n.space = "" then s.defaultSpace else n.space, n.base⟩ := by
  rw [resolve_eq_ok_iff] at h ⊢
  exact hs.write_denotes (h.isName_base hwritten) h.space_known

/-- So it is read as the same name just if it is in a namespace or there is no default one. -/
theorem Declared.resolve_write_iff (hs : s.Declared) (hwritten : IsWritten written)
    (h : s.resolve written = .ok n) :
    s.resolve (s.write n) = .ok n ↔ n.space ≠ "" ∨ s.defaultSpace = "" := by
  rw [hs.resolve_write hwritten h, Except.ok.injEq, QName.mk.injEq, and_iff_left rfl]
  split
  · rename_i hnone
    simp [hnone]
  · rename_i hsome
    simp [hsome]

end Scope

end Conform
