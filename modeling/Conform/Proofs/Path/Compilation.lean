import Conform.Proofs.Path.Grammar
/-!
# Compiled paths

A path is compiled if its text, less the white space, is in the grammar and each of its prefixes is
mapped. The branches and their steps are then those of the text one by one. Otherwise the first
prefix that is not mapped is named, or the whole path if it is not in the grammar.
-/

namespace Conform.Path

/-- What a test means where prefixes are bound as in a scope. -/
inductive WrittenTest.Means (scope : Scope) : WrittenTest → NameTest → Prop
  | any : Means scope .any .any
  | plain {base : String} : Means scope (.plain base) (.named ⟨"", base⟩)
  | anyIn {label space : String} : scope.space? label = some space →
    Means scope (.anyIn label) (.inSpace space)
  | within {label base space : String} : scope.space? label = some space →
    Means scope (.within label base) (.named ⟨space, base⟩)

/-- What a step means where prefixes are bound as in a scope. -/
inductive Step.Means (scope : Scope) : Step WrittenTest → Step NameTest → Prop
  | self : Means scope .self .self
  | descendants : Means scope .descendants .descendants
  | child {t : WrittenTest} {u : NameTest} : t.Means scope u → Means scope (.child t) (.child u)
  | onAttributes {t : WrittenTest} {u : NameTest} : t.Means scope u →
    Means scope (.onAttributes t) (.onAttributes u)

/-- The prefix of a test. -/
def WrittenTest.label? : WrittenTest → Option String
  | any | plain _ => none
  | anyIn label | within label _ => some label

def Step.label? : Step WrittenTest → Option String
  | self | descendants => none
  | child t | onAttributes t => t.label?

/-- The prefixes of a path in the order in which they are written. -/
def labels (branches : List (List (Step WrittenTest))) : List String :=
  branches.flatMap fun steps => steps.flatMap fun s => s.label?.toList

/-- The text of a path without white space. -/
def compact (source : String) : List Char := source.toList.filter fun c => !Text.isBlank c

/-- Steps of a branch: to all descendants only at first, to attributes only at last and only in a
field. -/
structure IsBranch {test : Type} (field : Bool) (steps : List (Step test)) : Prop where
  ne_nil : steps ≠ []
  descendants : .descendants ∉ steps.tail
  attributes : ∀ t, .onAttributes t ∉ steps.dropLast
  selector : field = false → ∀ t, .onAttributes t ∉ steps

/-! ## Prefixes -/

/-- An answer is good if all the prefixes are mapped, and else names the first that is not. -/
def Resolves {β : Type} (scope : Scope) (labels : List String) (answer : Except NameFault β)
    (Good : β → Prop) : Prop :=
  match labels.find? fun l => (scope.space? l).isNone with
  | none => ∃ b, answer = .ok b ∧ Good b
  | some label => answer = .error (.unmappedPrefix label)

section

variable {scope : Scope}

theorem WrittenTest.resolves (t : WrittenTest) :
    Resolves scope t.label?.toList (t.resolve scope) (t.Means scope) := by
  unfold Resolves
  cases t with
  | any => exact ⟨_, rfl, .any⟩
  | plain base => exact ⟨_, rfl, .plain⟩
  | anyIn label =>
      cases hspace : scope.space? label with
      | none => simp [label?, resolve, hspace]
      | some space => simpa [label?, resolve, hspace] using Means.anyIn hspace
  | within label base =>
      cases hspace : scope.space? label with
      | none => simp [label?, resolve, hspace]
      | some space => simpa [label?, resolve, hspace] using Means.within hspace

theorem Resolves.map {β γ : Type} {labels : List String} {answer : Except NameFault β}
    {Good : β → Prop} {Better : γ → Prop} {f : β → γ} (h : Resolves scope labels answer Good)
    (hf : ∀ b, Good b → Better (f b)) : Resolves scope labels (f <$> answer) Better := by
  unfold Resolves at h ⊢
  split at h
  · obtain ⟨b, rfl, hb⟩ := h
    exact ⟨_, rfl, hf b hb⟩
  · rw [h]
    rfl

theorem Step.resolves (s : Step WrittenTest) :
    Resolves scope s.label?.toList (s.resolve scope) (s.Means scope) := by
  cases s with
  | self => exact ⟨_, rfl, .self⟩
  | descendants => exact ⟨_, rfl, .descendants⟩
  | child t => exact t.resolves.map fun _ => .child
  | onAttributes t => exact t.resolves.map fun _ => .onAttributes

/-- Things are resolved one by one, up to the first prefix that is not mapped. -/
theorem Resolves.mapM {α β : Type} {labels : α → List String} {f : α → Except NameFault β}
    {R : α → β → Prop} (h : ∀ a, Resolves scope (labels a) (f a) (R a)) (as : List α) :
    Resolves scope (as.flatMap labels) (as.mapM f) (List.Forall₂ R as) := by
  induction as with
  | nil => exact ⟨[], rfl, .nil⟩
  | cons a as ih =>
      have ha := h a
      unfold Resolves at ha ih ⊢
      rw [List.flatMap_cons, List.find?_append, List.mapM_cons]
      cases hlabel : (labels a).find? fun l => (scope.space? l).isNone with
      | some label =>
          rw [hlabel] at ha
          simp only [ha, Option.some_or]
          rfl
      | none =>
          rw [hlabel] at ha
          obtain ⟨b, hb, hab⟩ := ha
          rw [Option.none_or, hb]
          split at ih
          · obtain ⟨bs, hbs, hall⟩ := ih
            rw [hbs]
            exact ⟨b :: bs, rfl, .cons hab hall⟩
          · rw [ih]
            rfl

theorem resolves (branches : List (List (Step WrittenTest))) :
    Resolves scope (labels branches) (branches.mapM fun branch => branch.mapM (Step.resolve scope))
      (List.Forall₂ (List.Forall₂ (Step.Means scope)) branches) :=
  Resolves.mapM (fun steps => Resolves.mapM Step.resolves steps) branches

end

/-! ## The shape of branches -/

section

variable {field : Bool} {scope : Scope}

/-- Steps that are spelled go to no descendants, and to attributes only where they may. -/
theorem Step.Spells.plain {last : Bool} {s : Step WrittenTest} {cs : List Char}
    (h : s.Spells last cs) :
    s ≠ .descendants ∧ (last = false → ∀ t, s ≠ .onAttributes t) := by
  cases h <;> simp

theorem shape_of_row {row : List (Step WrittenTest)} {cs : List Char}
    (h : Separated '/' (Step.Spells false) (Step.Spells field) row cs) :
    .descendants ∉ row ∧ (∀ t, .onAttributes t ∉ row.dropLast) ∧
      (field = false → ∀ t, .onAttributes t ∉ row) := by
  induction h with
  | last h => simpa [eq_comm] using h.plain
  | cons h hrest ih =>
      obtain ⟨hdescendants, hattributes, hselector⟩ := ih
      obtain ⟨hplain, hchild⟩ := h.plain
      have hchild := hchild rfl
      rw [List.dropLast_cons_of_ne_nil hrest.ne_nil]
      simp only [List.mem_cons, not_or]
      exact ⟨⟨hplain.symm, hdescendants⟩, fun t => ⟨(hchild t).symm, hattributes t⟩,
        fun hfield t => ⟨(hchild t).symm, hselector hfield t⟩⟩

theorem isBranch_of_spells {branch : List (Step WrittenTest)} {cs : List Char}
    (h : BranchSpells field branch cs) : IsBranch field branch := by
  cases h with
  | here h =>
      obtain ⟨hdescendants, hattributes, hselector⟩ := shape_of_row h
      exact ⟨h.ne_nil, fun h => hdescendants (List.mem_of_mem_tail h), hattributes, hselector⟩
  | below h =>
      obtain ⟨hdescendants, hattributes, hselector⟩ := shape_of_row h
      refine ⟨List.cons_ne_nil _ _, hdescendants, ?_, ?_⟩
      · rw [List.dropLast_cons_of_ne_nil h.ne_nil]
        simpa using hattributes
      · simpa using hselector

theorem exists_of_mem_right {α β : Type} {R : α → β → Prop} {as : List α} {bs : List β} {b : β}
    (h : List.Forall₂ R as bs) (hb : b ∈ bs) : ∃ a ∈ as, R a b := by
  induction h with
  | nil => cases hb
  | cons hab _ ih =>
      rcases List.mem_cons.1 hb with rfl | hb
      · exact ⟨_, List.mem_cons_self, hab⟩
      · obtain ⟨a, ha, hab⟩ := ih hb
        exact ⟨a, List.mem_cons_of_mem _ ha, hab⟩

theorem IsBranch.of_means {ws : List (Step WrittenTest)} {ss : List (Step NameTest)}
    (h : IsBranch field ws) (hmeans : List.Forall₂ (Step.Means scope) ws ss) :
    IsBranch field ss where
  ne_nil hnil := by
    rw [hnil] at hmeans
    cases hmeans
    exact h.ne_nil rfl
  descendants hs := by
    rw [← List.drop_one] at hs
    obtain ⟨w, hw, hmeans⟩ := exists_of_mem_right (List.forall₂_drop 1 hmeans) hs
    cases hmeans
    exact h.descendants (by rwa [← List.drop_one])
  attributes t hs := by
    rw [List.dropLast_eq_take, ← hmeans.length_eq] at hs
    obtain ⟨w, hw, hmeans⟩ := exists_of_mem_right (List.forall₂_take _ hmeans) hs
    cases hmeans
    exact h.attributes _ (by rwa [List.dropLast_eq_take])
  selector hfield t hs := by
    obtain ⟨w, hw, hmeans⟩ := exists_of_mem_right hmeans hs
    cases hmeans
    exact h.selector hfield _ hw

/-- Branches that mean what a text spells have the shape of branches. -/
theorem isBranch_of_means {cs : List Char} {branches : List (List (Step WrittenTest))}
    {compiled : List (List (Step NameTest))} (h : Spells field branches cs)
    (hmeans : List.Forall₂ (List.Forall₂ (Step.Means scope)) branches compiled) :
    compiled ≠ [] ∧ ∀ steps ∈ compiled, IsBranch field steps := by
  constructor
  · rintro rfl
    cases hmeans
    exact h.ne_nil rfl
  · intro steps hsteps
    obtain ⟨branch, hbranch, hmeans⟩ := exists_of_mem_right hmeans hsteps
    have hspells := h.forall_mem (fun _ _ h => isBranch_of_spells (h.elim id id)) branch hbranch
    exact hspells.of_means hmeans

end

/-! ## What compiling answers -/

/-- What compiling a path answers, for a selector or for a `field`. -/
structure Compiles (field : Bool) (role source : String) (scope : Scope)
    (answer : Except Failure Path) : Prop where
  ok_iff : (∃ p, answer = .ok p) ↔ compact source ∈ texts field ∧
    ∀ label ∈ labels (cutText (compact source)), (scope.space? label).isSome = true
  malformed : compact source ∉ texts field →
    answer = .error (.schema (.badPath role source) none)
  /-- The first prefix that is not mapped is named. -/
  unmapped : compact source ∈ texts field → ∀ label,
    (labels (cutText (compact source))).find? (fun l => (scope.space? l).isNone) = some label →
      answer = .error (.naming (.unmappedPrefix label))
  /-- The branches and their steps are those that the text spells, and they are what comes out if
  the text is cut at its signs. -/
  faithful : ∀ p, answer = .ok p → p.source = source ∧
    Spells field (cutText (compact source)) (compact source) ∧
      List.Forall₂ (List.Forall₂ (Step.Means scope)) (cutText (compact source)) p.branches
  shape : ∀ p, answer = .ok p → p.branches ≠ [] ∧ ∀ steps ∈ p.branches, IsBranch field steps

theorem compile_compiles (field : Bool) (role source : String) (scope : Scope) :
    Compiles field role source scope (compile field role source scope) := by
  unfold compile
  by_cases htext : compact source ∈ texts field
  · obtain ⟨branches, hspells⟩ := mem_texts.1 htext
    have hcut := cutText_of_spells hspells
    have hread := readBranches?_eq_some_iff.2 hspells
    have hresolves : Resolves scope (labels branches) _ _ := resolves branches
    rw [← compact, hread]
    unfold Resolves at hresolves
    cases hlabel : (labels branches).find? fun l => (scope.space? l).isNone with
    | none =>
        rw [hlabel] at hresolves
        obtain ⟨compiled, hok, hmeans⟩ := hresolves
        have hmapped : ∀ label ∈ labels (cutText (compact source)),
            (scope.space? label).isSome = true := by
          rw [hcut]
          simpa [Option.isSome_iff_ne_none] using List.find?_eq_none.1 hlabel
        simp only [hok]
        exact {
          ok_iff := ⟨fun _ => ⟨htext, hmapped⟩, fun _ => ⟨_, rfl⟩⟩
          malformed := fun h => absurd htext h
          unmapped := fun _ label h => by
            rw [hcut, hlabel] at h
            cases h
          faithful := by
            rintro p ⟨⟩
            rw [hcut]
            exact ⟨rfl, hspells, hmeans⟩
          shape := by
            rintro p ⟨⟩
            exact isBranch_of_means hspells hmeans }
    | some label =>
        rw [hlabel] at hresolves
        have hunmapped : scope.space? label = none := by simpa using List.find?_some hlabel
        simp only [hresolves]
        exact {
          ok_iff := by
            constructor
            · rintro ⟨_, h⟩
              cases h
            · rintro ⟨-, hmapped⟩
              have hsome := hmapped label (hcut.symm ▸ List.mem_of_find?_eq_some hlabel)
              rw [hunmapped] at hsome
              cases hsome
          malformed := fun h => absurd htext h
          unmapped := fun _ label' h => by
            rw [hcut, hlabel] at h
            rw [Option.some.inj h]
          faithful := fun p h => nomatch h
          shape := fun p h => nomatch h }
  · have hread : readBranches? field (compact source) = none := by
      rw [Option.eq_none_iff_forall_ne_some]
      exact fun branches h => htext (mem_texts.2 ⟨branches, readBranches?_eq_some_iff.1 h⟩)
    rw [← compact, hread]
    exact {
      ok_iff := by simp [htext]
      malformed := fun _ => rfl
      unmapped := fun h => absurd h htext
      faithful := fun p h => nomatch h
      shape := fun p h => nomatch h }

/-- Selectors and fields are compiled exactly if they are in their grammars and all their prefixes
are mapped, and then step by step. -/
theorem compile_exact (source : String) (scope : Scope) :
    Compiles false "selector" source scope (compileSelector source scope) ∧
      Compiles true "field" source scope (compileField source scope) :=
  ⟨compile_compiles false "selector" source scope, compile_compiles true "field" source scope⟩

end Conform.Path
