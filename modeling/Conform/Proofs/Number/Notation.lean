import Conform.Proofs.Number.Integer
import Conform.Simple.Builtin
import Mathlib.Data.List.DropRight
import Mathlib.Data.Rat.Defs
import Mathlib.Algebra.Order.Field.Rat
import Mathlib.Tactic.FieldSimp
import Mathlib.Tactic.NormNum
/-!
# Decimal notation

A number in decimal notation is a sign with the digits before and behind a point. What is written of
its parts is read as the same parts. Zeros in front and at the end do not change the number, and
once they are gone none is left to go.
-/

namespace Conform.Builtin.DecimalText

/-- The parts as they are written. -/
def written (t : DecimalText) : List Char :=
  (if t.negative then ['-'] else []) ++ t.whole ++
    (if t.fraction.isEmpty then [] else '.' :: t.fraction)

/-- All parts are digits. -/
def IsDigital (t : DecimalText) : Prop := ∀ c ∈ t.whole ++ t.fraction, c.isDigit = true

/-- The parts without zeros in front and at the end. -/
def trimmed (t : DecimalText) : DecimalText :=
  ⟨t.negative, Integer.leading t.whole, t.fraction.rdropWhile (· = '0')⟩

/-- The natural number that the digits write without the point. -/
def digits (t : DecimalText) : Nat := Nat.ofDigitChars 10 (t.whole ++ t.fraction) 0

/-- The number that the parts stand for. -/
def value (t : DecimalText) : ℚ :=
  (if t.negative then -1 else 1) * t.digits / 10 ^ t.fraction.length

variable {t : DecimalText} {cs : List Char}

theorem text_eq (t : DecimalText) : t.text = t.trimmed.written := rfl

/-! ## Reading -/

theorem IsDigital.whole (h : t.IsDigital) : ∀ c ∈ t.whole, c.isDigit = true :=
  fun c hc => h c (List.mem_append_left _ hc)

theorem IsDigital.fraction (h : t.IsDigital) : ∀ c ∈ t.fraction, c.isDigit = true :=
  fun c hc => h c (List.mem_append_right _ hc)

/-- The parts of a text, digits or not. -/
def parts (cs : List Char) : DecimalText :=
  let unsigned := (Integer.readSign cs).2
  let halves := (Text.cut '.' unsigned).getD (unsigned, [])
  ⟨(Integer.readSign cs).1, halves.1, halves.2⟩

/-- A number is read where the parts of a text are digits, at least one. -/
theorem read?_eq_some_iff :
    read? cs = some t ↔ parts cs = t ∧ (t.whole ≠ [] ∨ t.fraction ≠ []) ∧ t.IsDigital := by
  have hread : read? cs =
      if ((parts cs).whole.isEmpty && (parts cs).fraction.isEmpty) ||
        !(parts cs).whole.all Char.isDigit || !(parts cs).fraction.all Char.isDigit
      then none else some (parts cs) := rfl
  rw [hread]
  constructor
  · intro h
    split at h
    · cases h
    · rename_i hparts
      cases h
      simp only [Bool.or_eq_true, Bool.and_eq_true, List.isEmpty_iff, Bool.not_eq_true',
        not_or, Bool.not_eq_false, List.all_eq_true] at hparts
      refine ⟨rfl, not_and_or.1 hparts.1.1, fun c hc => ?_⟩
      exact (List.mem_append.1 hc).elim (hparts.1.2 c) (hparts.2 c)
  · rintro ⟨rfl, hne, h⟩
    rw [if_neg]
    simp only [Bool.or_eq_true, Bool.and_eq_true, List.isEmpty_iff, Bool.not_eq_true',
      not_or, Bool.not_eq_false, List.all_eq_true]
    exact ⟨⟨not_and_or.2 hne, h.whole⟩, h.fraction⟩

theorem isDigital_of_read? (h : read? cs = some t) : t.IsDigital := (read?_eq_some_iff.1 h).2.2

/-- What is written of digits is read as the same parts. -/
theorem read?_written (hne : t.whole ≠ []) (h : t.IsDigital) : read? t.written = some t := by
  refine read?_eq_some_iff.2 ⟨?_, .inl hne, h⟩
  obtain ⟨negative, whole, fraction⟩ := t
  have hpoint : '.' ∉ whole := fun hmem => absurd (h.whole '.' hmem) (by decide)
  have hsign := Integer.readSign_signed negative h.whole
    (if fraction.isEmpty then [] else '.' :: fraction) (.inr hne)
  dsimp only at hsign
  rw [written, List.append_assoc, parts]
  dsimp only
  rw [hsign]
  cases fraction with
  | nil => simp [Text.cut_eq_none hpoint]
  | cons c rest =>
      simp only [List.isEmpty_cons, Bool.false_eq_true, if_false]
      rw [Text.cut_append hpoint]
      rfl

theorem mem_written {c : Char} (h : t.IsDigital) (hc : c ∈ t.written) :
    c = '-' ∨ c = '.' ∨ c.isDigit = true := by
  rw [written] at hc
  rcases List.mem_append.1 hc with hc | hc
  · rcases List.mem_append.1 hc with hc | hc
    · split at hc
      · exact .inl (List.mem_singleton.1 hc)
      · cases hc
    · exact .inr (.inr (h.whole c hc))
  · split at hc
    · cases hc
    · rcases List.mem_cons.1 hc with rfl | hc
      · exact .inr (.inl rfl)
      · exact .inr (.inr (h.fraction c hc))

/-- What is written is no white space. -/
theorem visible_written (h : t.IsDigital) : ∀ c ∈ t.written, Text.isBlank c = false := by
  intro c hc
  rcases mem_written h hc with rfl | rfl | hdigit
  · decide
  · decide
  · exact Text.isBlank_of_isDigit hdigit

/-! ## Zeros in front and at the end -/

theorem IsDigital.trimmed (h : t.IsDigital) : t.trimmed.IsDigital := by
  intro c hc
  rcases List.mem_append.1 hc with hc | hc
  · exact Integer.isDigit_of_mem_leading h.whole c hc
  · exact h.fraction c ((List.rdropWhile_prefix ..).subset hc)

theorem trimmed_trimmed (t : DecimalText) : t.trimmed.trimmed = t.trimmed := by
  simp only [DecimalText.trimmed, Integer.leading_leading, List.rdropWhile_idempotent _ _]

/-- The parts are read again as they are written, once they are trimmed. -/
theorem IsDigital.read?_text (h : t.IsDigital) : read? t.text = some t.trimmed := by
  rw [text_eq]
  exact read?_written (Integer.leading_ne_nil _) h.trimmed

/-- The zeros at the end of the fraction count in the digits alone. -/
theorem fraction_eq (t : DecimalText) :
    ∃ n, t.fraction = t.trimmed.fraction ++ List.replicate n '0' ∧
      t.digits = 10 ^ n * t.trimmed.digits := by
  obtain ⟨negative, whole, fraction⟩ := t
  refine ⟨(fraction.rtakeWhile (· = '0')).length, ?_⟩
  have hzeros : fraction.rtakeWhile (· = '0') =
      List.replicate (fraction.rtakeWhile (· = '0')).length '0' :=
    List.eq_replicate_of_mem fun c hc => by simpa using List.mem_rtakeWhile_imp hc
  have hfraction : fraction = fraction.rdropWhile (· = '0') ++
      List.replicate (fraction.rtakeWhile (· = '0')).length '0' := by
    rw [← hzeros, List.rdropWhile_append_rtakeWhile]
  refine ⟨hfraction, ?_⟩
  simp only [digits, DecimalText.trimmed]
  conv_lhs => rw [hfraction]
  rw [← List.append_assoc, Nat.ofDigitChars_append, Nat.ofDigitChars_replicate_zero,
    Nat.ofDigitChars_append, Nat.ofDigitChars_append, Integer.ofDigitChars_leading]

/-- Zeros in front and at the end do not change the number. -/
theorem value_trimmed (t : DecimalText) : t.trimmed.value = t.value := by
  obtain ⟨n, hfraction, hdigits⟩ := t.fraction_eq
  have hlength : t.fraction.length = t.trimmed.fraction.length + n := by
    rw [hfraction, List.length_append, List.length_replicate]
  have hpower : (10 : ℚ) ^ n ≠ 0 := pow_ne_zero n (by norm_num)
  rw [value, value, hdigits, hlength, pow_add]
  push_cast
  field_simp
  exact mul_comm ..

end Conform.Builtin.DecimalText
