import Conform.Proofs.Number.Decimal
import Conform.Proofs.Text.Words
/-!
# Values and their texts

A value that a type has read is written as a text, and that text is read as the same value: it has
no white space to normalize, no zeros to leave out and no digits to round. So what a document holds
is stable from the first reading on.
-/

namespace Conform.Builtin

variable {b : Builtin} {cs : List Char} {s : String} {v : Json}

theorem decode_eq_ok_iff : b.decode s = .ok v ↔
    b.read (b.whiteSpace.normalize s.toList) = .ok v := by
  unfold decode
  dsimp only
  cases b.read (b.whiteSpace.normalize s.toList) <;> simp

/-- The text `cs` is what the type writes for the value, and it is read as the value. -/
structure Writes (b : Builtin) (v : Json) (cs : List Char) : Prop where
  normal : b.whiteSpace.normalize cs = cs
  read : b.read cs = .ok v
  encode : b.encode v = .ok (String.ofList cs)

theorem decode_of_read (hnormal : b.whiteSpace.normalize cs = cs) (hread : b.read cs = .ok v) :
    b.decode (String.ofList cs) = .ok v := by
  rw [decode_eq_ok_iff, String.toList_ofList, hnormal, hread]

/-! ## Integers -/

/-- A type of integers. -/
def IsInteger (b : Builtin) : Prop := b = integer ∨ b = nonNegativeInteger ∨ b = positiveInteger

theorem IsInteger.read_eq (h : b.IsInteger) (cs : List Char) : b.read cs = b.readInteger cs := by
  rcases h with rfl | rfl | rfl <;> rfl

theorem IsInteger.encode_eq (h : b.IsInteger) {t : String} (hdecode : b.decode t = .ok v) :
    b.encode (.number t) = .ok t := by
  rcases h with rfl | rfl | rfl <;> simp only [encode, hdecode]

/-- The parts of an integer that a type has read. -/
theorem readInteger_eq_ok_iff : b.readInteger cs = .ok v ↔
    Integer.isDigits (Integer.readSign cs).2 = true ∧
      b.checkSign (Integer.readSign cs).1
        (Integer.significant (Integer.readSign cs).2).isEmpty = .ok () ∧
      v = .number (String.ofList
        (Integer.canonical (Integer.readSign cs).1 (Integer.readSign cs).2)) := by
  unfold readInteger
  dsimp only
  split
  · rename_i hdigits
    cases b.checkSign (Integer.readSign cs).1
        (Integer.significant (Integer.readSign cs).2).isEmpty with
    | error reason => simp [bind, Except.bind]
    | ok u => simp [bind, Except.bind, pure, Except.pure, hdigits, eq_comm]
  · rename_i hdigits
    simp [hdigits, throw, throwThe, MonadExceptOf.throw]

/-- Zero is admitted without its sign where it is admitted with it. -/
theorem checkSign_zero {negative : Bool} (h : b.checkSign negative true = .ok ()) :
    b.checkSign false true = .ok () := by
  cases b <;> simp_all [checkSign]

/-- The canonical text of an integer is read as the integer. -/
theorem readInteger_canonical (h : b.readInteger cs = .ok v) :
    ∃ negative digits, (∀ c ∈ digits, c.isDigit = true) ∧
      v = .number (String.ofList (Integer.canonical negative digits)) ∧
      b.readInteger (Integer.canonical negative digits) = .ok v := by
  obtain ⟨hdigits, hsign, hvalue⟩ := readInteger_eq_ok_iff.1 h
  have hall := (Integer.isDigits_iff.1 hdigits).2
  refine ⟨_, _, hall, hvalue, readInteger_eq_ok_iff.2 ?_⟩
  rw [Integer.readSign_canonical hall, Integer.canonical_leading, Integer.significant_leading]
  refine ⟨Integer.isDigits_iff.2
    ⟨Integer.leading_ne_nil _, Integer.isDigit_of_mem_leading hall⟩, ?_, hvalue⟩
  cases hzero : (Integer.significant (Integer.readSign cs).2).isEmpty with
  | false => simpa [hzero] using hsign
  | true =>
      rw [hzero] at hsign
      simpa using checkSign_zero hsign

theorem IsInteger.writes (h : b.IsInteger) (hread : b.read cs = .ok v) :
    ∃ cs', b.Writes v cs' := by
  rw [h.read_eq] at hread
  obtain ⟨negative, digits, hdigits, rfl, hcanonical⟩ := readInteger_canonical hread
  rw [← h.read_eq] at hcanonical
  have hnormal := b.whiteSpace.normalize_of_visible (Integer.visible_canonical negative hdigits)
  exact ⟨_, hnormal, hcanonical, h.encode_eq (decode_of_read hnormal hcanonical)⟩

/-! ## Decimal numbers -/

theorem readDecimal_eq_ok_iff : readDecimal cs = .ok v ↔
    ∃ t, DecimalText.read? cs = some t ∧
      v = .number (((Decimal.read? t.text).map fun d => d.normalize.text).getD
        (String.ofList t.text)) := by
  unfold readDecimal
  cases DecimalText.read? cs with
  | none => simp
  | some t =>
      simp only [Option.some.injEq, exists_eq_left']
      cases Decimal.read? t.text <;> simp [eq_comm]

/-- A decimal number is written in decimal notation, without zeros to leave out, and is read again
as it is written. -/
theorem readDecimal_written (h : readDecimal cs = .ok v) :
    ∃ t : DecimalText, t.IsDigital ∧ v = .number (String.ofList t.written) ∧
      readDecimal t.written = .ok v := by
  obtain ⟨t, hread, rfl⟩ := readDecimal_eq_ok_iff.1 h
  have hdigital := DecimalText.isDigital_of_read? hread
  cases hdecimal : Decimal.read? t.text with
  | none =>
      have hagain := hdigital.read?_text
      rw [DecimalText.text_eq] at hagain hdecimal ⊢
      refine ⟨t.trimmed, hdigital.trimmed, rfl, readDecimal_eq_ok_iff.2 ⟨_, hagain, ?_⟩⟩
      rw [DecimalText.text_eq, DecimalText.trimmed_trimmed, hdecimal]
  | some d =>
      have hnormal := d.isNormal_normalize
      refine ⟨d.normalize.parts, d.normalize.isDigital_parts, ?_,
        readDecimal_eq_ok_iff.2 ⟨d.normalize.parts,
          DecimalText.read?_written d.normalize.whole_ne_nil d.normalize.isDigital_parts, ?_⟩⟩
      · rw [← Decimal.text_eq]
        rfl
      · rw [DecimalText.text_eq d.normalize.parts, hnormal.trimmed_parts, Decimal.read?_parts]
        simp [hnormal.normalize_eq]

/-! ## All types -/

theorem eq_text_of_readName (h : readName cs = .ok v) : v = .text (String.ofList cs) := by
  unfold readName at h
  dsimp only at h
  split_ifs at h
  exact (Except.ok.inj h).symm

theorem writes_of_read (hnormal : b.whiteSpace.normalize cs = cs) (h : b.read cs = .ok v) :
    ∃ cs', b.Writes v cs' := by
  cases b with
  | string | token =>
      obtain rfl := Except.ok.inj h
      exact ⟨cs, hnormal, rfl, rfl⟩
  | boolean =>
      unfold read readBoolean at h
      dsimp only at h
      split at h
      · cases h
        exact ⟨"true".toList, by decide, by decide, rfl⟩
      · split at h
        · cases h
          exact ⟨"false".toList, by decide, by decide, rfl⟩
        · cases h
  | integer => exact IsInteger.writes (.inl rfl) h
  | nonNegativeInteger => exact IsInteger.writes (.inr (.inl rfl)) h
  | positiveInteger => exact IsInteger.writes (.inr (.inr rfl)) h
  | decimal =>
      obtain ⟨t, hdigital, rfl, hagain⟩ := readDecimal_written h
      exact ⟨t.written, WhiteSpace.normalize_of_visible _ (DecimalText.visible_written hdigital),
        hagain, rfl⟩
  | qualifiedName =>
      obtain rfl := eq_text_of_readName h
      refine ⟨cs, hnormal, h, ?_⟩
      have hdecode := decode_of_read hnormal h
      rw [encode, isValid, hdecode]
      rfl

/-- What a text is read as can be written, and what is written is read as the same value. -/
theorem decode_encode (h : b.decode s = .ok v) :
    ∃ t, b.encode v = .ok t ∧ b.decode t = .ok v := by
  obtain ⟨cs, hwrites⟩ :=
    writes_of_read (WhiteSpace.normalize_normalize _ _) (decode_eq_ok_iff.1 h)
  exact ⟨String.ofList cs, hwrites.encode, decode_of_read hwrites.normal hwrites.read⟩

/-- A number of 30 places is rounded once. -/
theorem decode_encode_sample :
    decimal.decode " -007.123456789012345678901234567850 " =
        .ok (.number "-7.1234567890123456789012345679") ∧
      ∃ t, decimal.encode (.number "-7.1234567890123456789012345679") = .ok t ∧
        decimal.decode t = .ok (.number "-7.1234567890123456789012345679") := by
  have h : decimal.decode " -007.123456789012345678901234567850 " =
      .ok (.number "-7.1234567890123456789012345679") := by decide +kernel
  exact ⟨h, decode_encode h⟩

end Conform.Builtin
