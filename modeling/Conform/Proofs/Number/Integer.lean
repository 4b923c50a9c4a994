import Conform.Number.Integer
import Conform.Text.Blank
/-!
# Digits

Zeros in front of digits mean nothing, and the text without them stands for the same number. The
canonical text of an integer is its own canonical text.
-/

namespace Conform

/-- A digit is no white space, no sign and no point. -/
theorem Text.isBlank_of_isDigit {c : Char} (h : c.isDigit = true) : isBlank c = false := by
  have hcode : 48 ≤ c.toNat ∧ c.toNat ≤ 57 := by simpa using Char.isDigit_iff_toNat.1 h
  simp only [isBlank, Bool.or_eq_false_iff, Bool.and_eq_false_iff, decide_eq_false_iff_not]
  omega

namespace Integer

variable {cs digits : List Char} {negative : Bool}

theorem isDigits_iff : isDigits cs = true ↔ cs ≠ [] ∧ ∀ c ∈ cs, c.isDigit = true := by
  simp [isDigits]

/-- The signed digits are found again behind a sign. -/
theorem readSign_signed (negative : Bool) (h : ∀ c ∈ digits, c.isDigit = true) (rest : List Char)
    (hrest : rest = [] ∨ digits ≠ []) :
    readSign ((if negative then ['-'] else []) ++ (digits ++ rest)) =
      (negative, digits ++ rest) := by
  cases negative with
  | true => rfl
  | false =>
      cases digits with
      | nil => simp_all [readSign]
      | cons c more =>
          have hc := h c List.mem_cons_self
          simp only [Bool.false_eq_true, if_false, List.nil_append, List.cons_append]
          unfold readSign
          split
          · rename_i heq
            exact absurd (List.cons.inj heq).1 (by rintro rfl; exact absurd hc (by decide))
          · rename_i heq
            exact absurd (List.cons.inj heq).1 (by rintro rfl; exact absurd hc (by decide))
          · rfl

/-! ## Zeros in front -/

/-- The digits without zeros in front; zero keeps one. -/
def leading (digits : List Char) : List Char :=
  match significant digits with
  | [] => ['0']
  | rest => rest

theorem significant_zero (digits : List Char) : significant ('0' :: digits) = significant digits :=
  List.dropWhile_cons_of_pos (by decide)

theorem significant_of_ne {c : Char} (hc : c ≠ '0') (digits : List Char) :
    significant (c :: digits) = c :: digits :=
  List.dropWhile_cons_of_neg (by simpa using hc)

theorem significant_significant (digits : List Char) :
    significant (significant digits) = significant digits := by
  induction digits with
  | nil => rfl
  | cons c rest ih =>
      by_cases hc : c = '0'
      · rwa [hc, significant_zero]
      · rw [significant_of_ne hc, significant_of_ne hc]

theorem leading_of_significant (h : significant digits ≠ []) :
    leading digits = significant digits := by
  unfold leading
  split
  · rename_i heq
    exact absurd heq h
  · rfl

theorem leading_ne_nil (digits : List Char) : leading digits ≠ [] := by
  unfold leading
  split
  · exact List.cons_ne_nil _ _
  · assumption

theorem leading_singleton (c : Char) : leading [c] = [c] := by
  by_cases hc : c = '0'
  · rw [hc]
    rfl
  · rw [leading, significant_of_ne hc]

/-- Digits that do not begin with zero are kept. -/
theorem leading_eq_self (hne : digits ≠ []) (h : ∀ rest, digits ≠ '0' :: rest) :
    leading digits = digits := by
  obtain ⟨c, rest, rfl⟩ := List.exists_cons_of_ne_nil hne
  have hc : c ≠ '0' := fun hc => h rest (by rw [hc])
  rw [leading, significant_of_ne hc]

theorem leading_leading (digits : List Char) : leading (leading digits) = leading digits := by
  by_cases h : significant digits = []
  · simp only [leading, h]
    rfl
  · rw [leading_of_significant h]
    have hsame := significant_significant digits
    rw [leading_of_significant (hsame.symm ▸ h), hsame]

theorem isDigit_of_mem_leading (h : ∀ c ∈ digits, c.isDigit = true) :
    ∀ c ∈ leading digits, c.isDigit = true := by
  unfold leading
  split
  · simp
  · exact fun c hc => h c ((List.dropWhile_sublist _).subset hc)

/-- Zeros in front do not change the number. -/
theorem ofDigitChars_significant (digits : List Char) :
    Nat.ofDigitChars 10 (significant digits) 0 = Nat.ofDigitChars 10 digits 0 := by
  induction digits with
  | nil => rfl
  | cons c rest ih =>
      by_cases hc : c = '0'
      · simpa [hc, significant_zero, Nat.ofDigitChars_cons] using ih
      · rw [significant_of_ne hc]

theorem ofDigitChars_leading (digits : List Char) :
    Nat.ofDigitChars 10 (leading digits) 0 = Nat.ofDigitChars 10 digits 0 := by
  by_cases h : significant digits = []
  · rw [← ofDigitChars_significant digits]
    simp [leading, h, Nat.ofDigitChars_cons]
  · rw [leading_of_significant h, ofDigitChars_significant]

/-! ## Canonical texts -/

theorem canonical_eq (negative : Bool) (digits : List Char) :
    canonical negative digits =
      (if negative && !(significant digits).isEmpty then ['-'] else []) ++ leading digits := by
  unfold canonical leading
  split
  · rename_i h
    simp [h]
  · rename_i h
    cases negative <;> simp_all

theorem readSign_canonical (h : ∀ c ∈ digits, c.isDigit = true) :
    readSign (canonical negative digits) =
      (negative && !(significant digits).isEmpty, leading digits) := by
  have hsigned := readSign_signed (negative && !(significant digits).isEmpty)
    (isDigit_of_mem_leading h) [] (.inl rfl)
  rwa [List.append_nil, ← canonical_eq] at hsigned

theorem significant_leading (digits : List Char) :
    significant (leading digits) = significant digits := by
  by_cases h : significant digits = []
  · simp only [leading, h]
    rfl
  · rw [leading_of_significant h, significant_significant]

/-- The canonical text is canonical. -/
theorem canonical_leading (negative : Bool) (digits : List Char) :
    canonical (negative && !(significant digits).isEmpty) (leading digits) =
      canonical negative digits := by
  simp [canonical_eq, significant_leading, leading_leading]

theorem visible_canonical (negative : Bool) (h : ∀ c ∈ digits, c.isDigit = true) :
    ∀ c ∈ canonical negative digits, Text.isBlank c = false := by
  intro c hc
  rw [canonical_eq] at hc
  rcases List.mem_append.1 hc with hc | hc
  · split at hc
    · rw [List.mem_singleton.1 hc]
      decide
    · cases hc
  · exact Text.isBlank_of_isDigit (isDigit_of_mem_leading h c hc)

end Integer

end Conform
