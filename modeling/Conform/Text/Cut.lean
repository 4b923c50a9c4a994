/-!
# Cutting text

A text is cut at the first place where a given character stands, or freed of a given beginning.
-/

namespace Conform.Text

/-- What stands before and after the first `c`, if there is one. -/
def cut (c : Char) (cs : List Char) : Option (List Char × List Char) :=
  match cs.dropWhile (· != c) with
  | [] => none
  | _ :: rest => some (cs.takeWhile (· != c), rest)

theorem eq_append_of_cut {c : Char} {cs a b : List Char} (h : cut c cs = some (a, b)) :
    cs = a ++ c :: b := by
  have whole := List.takeWhile_append_dropWhile (p := (· != c)) (l := cs)
  unfold cut at h
  split at h
  · simp at h
  · rename_i x rest heq
    obtain ⟨rfl, rfl⟩ := by simpa using h
    have hx : (x != c) = false := by
      have := List.head_dropWhile_not (p := (· != c)) (l := cs) (by simp [heq])
      simpa [heq] using this
    have : x = c := by simpa using hx
    subst this
    rw [← heq]
    exact whole.symm

theorem not_mem_of_cut {c : Char} {cs a b : List Char} (h : cut c cs = some (a, b)) : c ∉ a := by
  unfold cut at h
  split at h
  · simp at h
  · obtain ⟨rfl, rfl⟩ := by simpa using h
    intro hc
    have all := List.all_takeWhile (p := (· != c)) (l := cs)
    simpa using List.all_eq_true.1 all c hc

theorem cut_append {c : Char} {a : List Char} (h : c ∉ a) (b : List Char) :
    cut c (a ++ c :: b) = some (a, b) := by
  have hne : ∀ x ∈ a, (x != c) = true := fun x hx => by
    simpa using fun hxc : x = c => h (hxc ▸ hx)
  rw [cut, List.dropWhile_append_of_pos hne, List.takeWhile_append_of_pos hne]
  simp

theorem cut_eq_none {c : Char} {cs : List Char} (h : c ∉ cs) : cut c cs = none := by
  have hall : cs.dropWhile (· != c) = [] := by
    induction cs with
    | nil => rfl
    | cons x rest ih =>
        simp only [List.mem_cons, not_or] at h
        rw [List.dropWhile_cons_of_pos (by simpa using Ne.symm h.1)]
        exact ih h.2
  rw [cut, hall]

/-- The text after the beginning `start`, if it begins so. -/
def dropStart? (start : List Char) (cs : List Char) : Option (List Char) :=
  if start.isPrefixOf cs then some (cs.drop start.length) else none

/-- The text that follows `start`, with the whole text if it does not begin so. -/
def dropStart (start : List Char) (cs : List Char) : List Char := (dropStart? start cs).getD cs

theorem dropStart?_eq_some_iff {start cs rest : List Char} :
    dropStart? start cs = some rest ↔ cs = start ++ rest := by
  unfold dropStart?
  constructor
  · split
    · rename_i h
      rintro ⟨⟩
      obtain ⟨t, rfl⟩ := List.isPrefixOf_iff_prefix.1 h
      simp
    · simp
  · rintro rfl
    simp

end Conform.Text
