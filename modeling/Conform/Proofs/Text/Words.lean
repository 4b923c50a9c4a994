import Conform.Simple.WhiteSpace
/-!
# Words of a text

The words of a text hold no white space, and written with one space between them they are the words
of what is written. So white space that was normalized once stays as it is.
-/

namespace Conform.Text

/-- At least one character, and no white space. -/
structure IsWord (w : List Char) : Prop where
  ne_nil : w ≠ []
  visible : ∀ c ∈ w, isBlank c = false

instance (w : List Char) : Decidable (IsWord w) :=
  decidable_of_iff (w.isEmpty = false ∧ w.any isBlank = false)
    ⟨fun h => ⟨List.isEmpty_eq_false_iff.1 h.1, by simpa using h.2⟩,
      fun h => ⟨List.isEmpty_eq_false_iff.2 h.ne_nil, by simpa using h.visible⟩⟩

variable {cs w : List Char} {ws : List (List Char)}

/-- The parts between the characters at which a list is split hold none of them. -/
theorem visible_of_mem_splitOnP {α : Type} {p : α → Bool} {part : List α} :
    ∀ {xs : List α}, part ∈ xs.splitOnP p → ∀ x ∈ part, p x = false
  | [], h => by
    rw [List.splitOnP_nil, List.mem_singleton] at h
    subst h
    exact fun _ hx => absurd hx List.not_mem_nil
  | a :: rest, h => by
    rw [List.splitOnP_cons_eq_if_modifyHead] at h
    split at h
    · rcases List.mem_cons.1 h with rfl | hrest
      · exact fun _ hx => absurd hx List.not_mem_nil
      · exact visible_of_mem_splitOnP hrest
    · rename_i ha
      obtain ⟨head, tail, hsplit⟩ := List.exists_cons_of_ne_nil (List.splitOnP_ne_nil p rest)
      have hparts : ∀ part ∈ head :: tail, ∀ x ∈ part, p x = false := fun _ hpart =>
        visible_of_mem_splitOnP (hsplit ▸ hpart)
      rw [hsplit, List.modifyHead_cons] at h
      rcases List.mem_cons.1 h with rfl | htail
      · intro x hx
        rcases List.mem_cons.1 hx with rfl | hx
        · simpa using ha
        · exact hparts head List.mem_cons_self x hx
      · exact hparts part (List.mem_cons_of_mem _ htail)

theorem isWord_of_mem_words (h : w ∈ words cs) : IsWord w := by
  obtain ⟨hmem, hne⟩ := List.mem_filter.1 h
  exact ⟨by simpa using hne, visible_of_mem_splitOnP hmem⟩

/-- A text without white space is the only word in it. -/
theorem words_of_isWord (h : IsWord w) : words w = [w] := by
  rw [words, List.splitOnP_eq_singleton h.visible, List.filter_cons_of_pos (by simp [h.ne_nil]),
    List.filter_nil]

theorem words_append_blank (h : IsWord w) {c : Char} (hc : isBlank c = true) :
    words (w ++ c :: cs) = w :: words cs := by
  rw [words, List.splitOnP_append_cons_of_forall_mem h.visible c hc,
    List.filter_cons_of_pos (by simp [h.ne_nil])]
  rfl

theorem words_blank_cons {c : Char} (hc : isBlank c = true) (cs : List Char) :
    words (c :: cs) = words cs := by
  rw [words, List.splitOnP_cons_eq_if_modifyHead, if_pos hc, List.filter_cons_of_neg (by simp)]
  rfl

theorem words_blanks_append {before : List Char} (h : ∀ c ∈ before, isBlank c = true)
    (cs : List Char) : words (before ++ cs) = words cs := by
  induction before with
  | nil => rfl
  | cons c before ih =>
      rw [List.cons_append, words_blank_cons (h c List.mem_cons_self)]
      exact ih fun x hx => h x (List.mem_cons_of_mem _ hx)

/-- The characters in front that have a property, up to the first that has not. -/
theorem exists_run (p : Char → Bool) : ∀ cs : List Char, ∃ run rest, cs = run ++ rest ∧
    (∀ c ∈ run, p c = true) ∧ ∀ c ∈ rest.head?, p c = false
  | [] => ⟨[], [], rfl, nofun, nofun⟩
  | c :: cs => by
    cases hc : p c with
    | false => exact ⟨[], c :: cs, rfl, nofun, by simp [hc]⟩
    | true =>
        obtain ⟨run, rest, rfl, hrun, hrest⟩ := exists_run p cs
        exact ⟨c :: run, rest, rfl, List.forall_mem_cons.2 ⟨hc, hrun⟩, hrest⟩

/-- A text is white space alone, or it has a first word. -/
theorem words_cases (cs : List Char) : (∀ c ∈ cs, isBlank c = true) ∧ words cs = [] ∨
    ∃ before w rest, cs = before ++ (w ++ rest) ∧ (∀ c ∈ before, isBlank c = true) ∧ IsWord w ∧
      words cs = w :: words rest := by
  obtain ⟨before, cs, rfl, hbefore, hfirst⟩ := exists_run isBlank cs
  rw [words_blanks_append hbefore]
  cases cs with
  | nil => exact .inl ⟨by simpa using hbefore, rfl⟩
  | cons c cs =>
      obtain ⟨w, rest, hcs, hvisible, hnext⟩ := exists_run (!isBlank ·) (c :: cs)
      have hword : IsWord w := by
        refine ⟨?_, by simpa using hvisible⟩
        rintro rfl
        rw [List.nil_append] at hcs
        have hblank : (!isBlank c) = false := hnext c (hcs ▸ rfl)
        rw [hfirst c rfl] at hblank
        cases hblank
      rw [hcs]
      refine .inr ⟨before, w, rest, rfl, hbefore, hword, ?_⟩
      cases rest with
      | nil =>
          rw [List.append_nil, words_of_isWord hword]
          rfl
      | cons c rest =>
          have hc : isBlank c = true := by simpa using hnext c rfl
          rw [words_append_blank hword hc, words_blank_cons hc]

theorem blank_of_words_eq_nil (h : words cs = []) : ∀ c ∈ cs, isBlank c = true := by
  obtain ⟨hblank, -⟩ | ⟨_, _, _, -, -, -, hwords⟩ := words_cases cs
  · exact hblank
  · rw [h] at hwords
    cases hwords

/-- One word, with white space around it. -/
theorem words_eq_singleton_iff : words cs = [w] ↔ IsWord w ∧ ∃ before after,
    cs = before ++ (w ++ after) ∧ (∀ c ∈ before, isBlank c = true) ∧
      ∀ c ∈ after, isBlank c = true := by
  constructor
  · intro h
    obtain ⟨-, hwords⟩ | ⟨before, w', after, hcs, hbefore, hword, hwords⟩ := words_cases cs
    · rw [h] at hwords
      cases hwords
    · obtain ⟨rfl, hafter⟩ := List.cons.inj (h.symm.trans hwords)
      exact ⟨hword, before, after, hcs, hbefore, blank_of_words_eq_nil hafter.symm⟩
  · rintro ⟨hword, before, after, rfl, hbefore, hafter⟩
    rw [words_blanks_append hbefore]
    cases after with
    | nil => rw [List.append_nil, words_of_isWord hword]
    | cons c after =>
        obtain ⟨hc, hafter⟩ := List.forall_mem_cons.1 hafter
        rw [words_append_blank hword hc, ← List.append_nil after, words_blanks_append hafter]
        rfl

/-- Words are found again behind one space each. -/
theorem words_intercalate : ∀ {ws : List (List Char)}, (∀ w ∈ ws, IsWord w) →
    words ([' '].intercalate ws) = ws
  | [], _ => by simp [words, List.splitOnP_nil]
  | [w], h => by
    rw [List.intercalate_singleton, words_of_isWord (h w List.mem_cons_self)]
  | w :: w' :: rest, h => by
    rw [List.intercalate_cons_cons, List.append_assoc, List.singleton_append,
      words_append_blank (h w List.mem_cons_self) (by decide),
      words_intercalate fun w hw => h w (List.mem_cons_of_mem _ hw)]

end Text

namespace WhiteSpace

/-- White space that is normalized is left as it is. -/
theorem normalize_normalize (mode : WhiteSpace) (cs : List Char) :
    mode.normalize (mode.normalize cs) = mode.normalize cs := by
  cases mode with
  | preserve => rfl
  | replace =>
      simp only [normalize, List.map_map]
      refine List.map_congr_left fun c _ => ?_
      by_cases hc : (c = '\t' || c = '\n' || c = '\r') = true
      · simp only [Function.comp_apply, if_pos hc]
        rfl
      · simp only [Function.comp_apply, if_neg hc]
  | collapse =>
      have hwords := Text.words_intercalate fun w (hw : w ∈ Text.words cs) =>
        Text.isWord_of_mem_words hw
      rw [normalize, normalize, hwords]

/-- A text without white space has none to normalize. -/
theorem normalize_of_visible (mode : WhiteSpace) {cs : List Char}
    (h : ∀ c ∈ cs, Text.isBlank c = false) : mode.normalize cs = cs := by
  cases mode with
  | preserve => rfl
  | replace =>
      refine (List.map_congr_left fun c hc => if_neg fun hreplaced => ?_).trans (List.map_id cs)
      have hblank : Text.isMarkupBlank c = true := by grind [Text.isMarkupBlank]
      have hvisible := h c hc
      rw [Text.isBlank_of_isMarkupBlank hblank] at hvisible
      cases hvisible
  | collapse =>
      by_cases hne : cs = []
      · subst hne
        rfl
      · rw [normalize, Text.words_of_isWord ⟨hne, h⟩, List.intercalate_singleton]

/-- White space is collapsed to a word where that is the only word. -/
theorem collapse_eq_iff {cs w : List Char} (hw : Text.IsWord w) :
    collapse.normalize cs = w ↔ Text.words cs = [w] := by
  constructor
  · intro h
    rw [normalize] at h
    cases hwords : Text.words cs with
    | nil =>
        rw [hwords] at h
        exact absurd h.symm hw.ne_nil
    | cons w' ws =>
        cases ws with
        | nil =>
            rw [hwords, List.intercalate_singleton] at h
            rw [h]
        | cons w'' ws =>
            -- between two words there is a space, which no word has
            rw [hwords, List.intercalate_cons_cons] at h
            exact absurd (hw.visible ' ' (by simp [← h])) (by decide)
  · intro h
    rw [normalize, h, List.intercalate_singleton]

end WhiteSpace

end Conform
