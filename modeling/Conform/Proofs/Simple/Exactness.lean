import Conform.Identity.Value
import Conform.Proofs.Number.Rounding
import Conform.Proofs.Simple.Encoding
/-!
# Exact decimal numbers

A text of the type of decimal numbers stands for the number that it spells, as long as no digit is
rounded away. Its value is then in canonical notation, so that identity constraints tell two such
values apart exactly if the numbers differ. Digits are rounded away where the number fits in 96 bits and
the digits behind the point do not.
-/

namespace Conform

/-! ## What a field value counts as -/

/-- The integer that a text writes is the number that it stands for. -/
theorem Json.numberValue?_of_integer {t : String} {n : Int} (h : Integer.read? t.toList = some n) :
    numberValue? t = some (n : ℚ) := by
  unfold Integer.read? at h
  dsimp only at h
  split at h
  · rename_i hdigits
    cases h
    rw [Builtin.numberValue?_of_isDigits hdigits, Builtin.DecimalText.value,
      Builtin.DecimalText.digits]
    cases (Integer.readSign t.toList).1 <;> simp
  · cases h

namespace FieldValue

open Json

/-- The number that a field value counts as. -/
def number? : FieldValue → Option ℚ
  | integer n => some n
  | decimal d => some d.value
  | text s => numberValue? s
  | _ => none

theorem number?_ofDecimal (d : Decimal) : (ofDecimal d).number? = some d.value := by
  unfold ofDecimal
  split
  · rename_i n hint
    split
    · unfold Decimal.toInt? at hint
      split at hint
      · rename_i hscale
        cases hint
        rw [← d.value_normalize, number?, Decimal.value, hscale]
        cases d.normalize.negative <;> simp
      · cases hint
    · rw [number?, d.value_normalize]
  · rw [number?, d.value_normalize]

/-- A number counts as what its text stands for, if it is not rounded. -/
theorem number?_ofNumber {t : String} (hplain : 'e' ∉ t.toList)
    (hread : ∀ d, Decimal.read? t.toList = some d → numberValue? t = some d.value) :
    (ofNumber t).number? = numberValue? t := by
  unfold ofNumber
  dsimp only
  split
  · rename_i n hint
    rw [numberValue?_of_integer (Option.filter_eq_some_iff.1 hint).1]
    rfl
  · have hscientific : Decimal.readScientific? t.toList = none := by
      rw [Decimal.readScientific?, Text.cut_eq_none hplain]
      rfl
    rw [hscientific, Option.or_none]
    split
    · rename_i d hd
      rw [number?_ofDecimal, hread d hd]
    · rfl

end FieldValue

namespace Builtin

open Json

variable {cs : List Char} {s s' : String}

namespace DecimalText

variable {d : DecimalText}

instance (d : DecimalText) : Decidable d.IsDigital :=
  decidable_of_iff ((d.whole ++ d.fraction).all Char.isDigit = true) List.all_eq_true

/-! ## The lexical space -/

/-- A text spells a decimal number: an optional sign, then digits with an optional point among or
beside them, at least one digit. -/
structure Spells (d : DecimalText) (cs : List Char) : Prop where
  digital : d.IsDigital
  ne_nil : d.whole ≠ [] ∨ d.fraction ≠ []
  spelled : ∃ sign point, cs = sign ++ (d.whole ++ point) ∧
    (if d.negative then sign = ['-'] else sign = [] ∨ sign = ['+']) ∧
      (point = '.' :: d.fraction ∨ point = [] ∧ d.fraction = [])

/-- The texts of the lexical space are read. -/
theorem Spells.read? (h : d.Spells cs) : read? cs = some d := by
  refine read?_eq_some_iff.2 ⟨?_, h.ne_nil, h.digital⟩
  obtain ⟨sign, point, rfl, hsign, hpoint⟩ := h.spelled
  have hunsigned : Integer.readSign (d.whole ++ point) = (false, d.whole ++ point) := by
    by_cases hwhole : d.whole = []
    · rcases hpoint with rfl | ⟨-, hfraction⟩
      · rw [hwhole]
        rfl
      · exact absurd hfraction (h.ne_nil.resolve_left (not_not_intro hwhole))
    · exact Integer.readSign_signed false h.digital.whole point (.inr hwhole)
  have hreadSign : Integer.readSign (sign ++ (d.whole ++ point)) =
      (d.negative, d.whole ++ point) := by
    cases hnegative : d.negative with
    | true =>
        obtain rfl : sign = ['-'] := by simpa [hnegative] using hsign
        rfl
    | false =>
        obtain rfl | rfl : sign = [] ∨ sign = ['+'] := by simpa [hnegative] using hsign
        · exact hunsigned
        · rfl
  have hcut : (Text.cut '.' (d.whole ++ point)).getD (d.whole ++ point, []) =
      (d.whole, d.fraction) := by
    have hdot : '.' ∉ d.whole := fun hmem => absurd (h.digital.whole '.' hmem) (by decide)
    rcases hpoint with rfl | ⟨rfl, hfraction⟩
    · rw [Text.cut_append hdot]
      rfl
    · rw [List.append_nil, Text.cut_eq_none hdot, hfraction]
      rfl
  simp only [parts, hreadSign, hcut]

theorem Spells.visible (h : d.Spells cs) : ∀ c ∈ cs, Text.isBlank c = false := by
  obtain ⟨sign, point, rfl, hsign, hpoint⟩ := h.spelled
  intro c hc
  rcases List.mem_append.1 hc with hc | hc
  · have hmark : sign = ['-'] ∨ sign = [] ∨ sign = ['+'] := by
      split at hsign
      · exact .inl hsign
      · exact .inr hsign
    rcases hmark with rfl | rfl | rfl
    · rw [List.mem_singleton.1 hc]
      decide
    · cases hc
    · rw [List.mem_singleton.1 hc]
      decide
  · rcases List.mem_append.1 hc with hc | hc
    · exact Text.isBlank_of_isDigit (h.digital.whole c hc)
    · rcases hpoint with rfl | ⟨rfl, -⟩
      · rcases List.mem_cons.1 hc with rfl | hc
        · decide
        · exact Text.isBlank_of_isDigit (h.digital.fraction c hc)
      · cases hc

/-! ## The value that is read -/

/-- The text of the value: the number in 96 bits, and what is written where it does not fit. -/
def stored (d : DecimalText) : String :=
  ((Decimal.read? d.text).map fun x => x.normalize.text).getD (String.ofList d.text)

theorem Spells.decode (h : d.Spells s.toList) : decimal.decode s = .ok (.number d.stored) := by
  rw [decode_eq_ok_iff, WhiteSpace.normalize_of_visible _ h.visible]
  exact readDecimal_eq_ok_iff.2 ⟨d, h.read?, rfl⟩

/-- No digit has to be rounded away: without zeros in front and at the end all digits fit in 96 bits
with at most 28 places, or the number is too large to be rounded. -/
def IsUnrounded (d : DecimalText) : Prop :=
  (d.trimmed.digits < 2 ^ 96 ∧ d.trimmed.fraction.length ≤ 28) ∨ (2 : ℚ) ^ 96 ≤ |d.value| + 1 / 2

theorem isExact_trimmed_iff (h : d.IsDigital) : d.trimmed.IsExact ↔ d.IsUnrounded := by
  rw [IsExact, Decimal.read?_eq_none_iff (Integer.leading_ne_nil _) h.trimmed, value_trimmed]
  exact Iff.rfl

/-- Zero has no digits behind the point once it is trimmed, so that it fits. -/
theorem fits_of_digits_eq_zero (h : d.IsDigital) (hzero : d.trimmed.digits = 0) :
    d.trimmed.digits < Nat.pow 2 96 ∧ d.trimmed.fraction.length ≤ 28 := by
  have hfraction : d.trimmed.fraction = [] := by
    by_contra hne
    exact last_ne_zero h.trimmed d.trimmed_trimmed hne (by rw [hzero])
  rw [hzero, hfraction]
  decide

theorem isCanonical_trimmed (h : d.IsDigital) (hne : d.trimmed.digits ≠ 0) :
    d.trimmed.IsCanonical :=
  ⟨h.trimmed, d.trimmed_trimmed, fun hzero => absurd hzero hne⟩

/-- The value is the number `u` in canonical notation, which is not rounded when it is read. -/
structure StoredAs (d u : DecimalText) : Prop where
  canonical : u.IsCanonical
  value : u.value = d.value
  stored : d.stored = String.ofList u.written
  exact : ∀ x, Decimal.read? u.written = some x → x.value = u.value

/-- A number that is not rounded is stored in canonical notation. -/
theorem exists_storedAs (h : d.IsDigital) (hexact : d.trimmed.IsExact) : ∃ u, d.StoredAs u := by
  have hne := Integer.leading_ne_nil d.whole
  by_cases hfits : d.trimmed.digits < Nat.pow 2 96 ∧ d.trimmed.fraction.length ≤ 28
  · have hread := Decimal.read?_fits hne h.trimmed hfits.1 hfits.2
    generalize hx : Decimal.mk d.trimmed.negative d.trimmed.digits d.trimmed.fraction.length
      hfits.1 hfits.2 = x at hread
    refine ⟨x.normalize.parts, x.isNormal_normalize.isCanonical_parts, ?_, ?_, ?_⟩
    · rw [Decimal.value_parts, Decimal.value_normalize, ← d.value_trimmed, ← hx]
      rfl
    · rw [DecimalText.stored, text_eq, hread, ← Decimal.text_eq]
      rfl
    · intro y hy
      rw [Decimal.read?_parts] at hy
      cases hy
      rw [Decimal.value_parts]
  · have hkept := hexact.resolve_left hfits
    have hnonzero : d.trimmed.digits ≠ 0 := fun hzero => hfits (fits_of_digits_eq_zero h hzero)
    refine ⟨d.trimmed, isCanonical_trimmed h hnonzero, d.value_trimmed, ?_, ?_⟩
    · rw [DecimalText.stored, text_eq, hkept]
      rfl
    · intro x hx
      rw [hkept] at hx
      cases hx

/-- A number keeps its value exactly if it is not rounded. -/
theorem numberValue?_stored_iff (h : d.IsDigital) :
    numberValue? d.stored = some d.value ↔ d.trimmed.IsExact := by
  refine ⟨fun hvalue => ?_, numberValue?_of_isExact h⟩
  by_cases hzero : d.trimmed.digits = 0
  · exact .inl (fits_of_digits_eq_zero h hzero)
  · cases hread : Decimal.read? d.trimmed.written with
    | none => exact .inr hread
    | some x =>
        have hstored : d.stored = String.ofList x.normalize.parts.written := by
          rw [stored, text_eq, hread, ← Decimal.text_eq]
          rfl
        rw [hstored, numberValue?_written x.normalize.whole_ne_nil x.normalize.isDigital_parts,
          Option.some.injEq, ← d.value_trimmed] at hvalue
        -- the number in 96 bits has the same canonical notation
        have hparts := x.isNormal_normalize.isCanonical_parts.eq_of_value
          (isCanonical_trimmed h hzero) hvalue
        refine .inl ⟨?_, ?_⟩
        · rw [← hparts, Decimal.digits_parts]
          exact x.normalize.mantissa_lt
        · rw [← hparts, Decimal.length_fraction]
          exact x.normalize.scale_le

theorem StoredAs.number? {u : DecimalText} (h : d.StoredAs u) :
    (FieldValue.ofJson (.number d.stored)).number? = some d.value := by
  have hne : u.whole ≠ [] := h.canonical.trimmed ▸ Integer.leading_ne_nil u.whole
  have hvalue := numberValue?_written hne h.canonical.digital
  rw [h.stored, FieldValue.ofJson, FieldValue.number?_ofNumber, hvalue, h.value]
  · intro hmem
    rw [String.toList_ofList] at hmem
    rcases mem_written h.canonical.digital hmem with hc | hc | hdigit
    · exact absurd hc (by decide)
    · exact absurd hc (by decide)
    · exact absurd hdigit (by decide)
  · intro x hx
    rw [String.toList_ofList] at hx
    rw [hvalue, h.exact x hx]

/-- Numbers that are not rounded have one field value exactly if they are one number. -/
theorem StoredAs.ofJson_eq_iff {d' u u' : DecimalText} (h : d.StoredAs u) (h' : d'.StoredAs u') :
    FieldValue.ofJson (.number d.stored) = FieldValue.ofJson (.number d'.stored) ↔
      d.value = d'.value := by
  constructor
  · intro heq
    have hsame := congrArg FieldValue.number? heq
    rwa [h.number?, h'.number?, Option.some.injEq] at hsame
  · intro heq
    have hnotation : u = u' :=
      h.canonical.eq_of_value h'.canonical (by rw [h.value, h'.value, heq])
    rw [h.stored, h'.stored, hnotation]

end DecimalText

/-- A text of the lexical space of decimal numbers is read as the number that it spells exactly if
that is not rounded, and the field values of two such numbers are equal exactly if these are. -/
theorem decode_exact {d d' : DecimalText} (h : d.Spells s.toList) (h' : d'.Spells s'.toList) :
    ∃ w w', decimal.decode s = .ok (.number w) ∧ decimal.decode s' = .ok (.number w') ∧
      (numberValue? w = some d.value ↔ d.IsUnrounded) ∧
        (d.IsUnrounded → d'.IsUnrounded →
          (FieldValue.ofJson (.number w) = FieldValue.ofJson (.number w') ↔ d.value = d'.value)) := by
  rw [← DecimalText.isExact_trimmed_iff h.digital, ← DecimalText.isExact_trimmed_iff h'.digital]
  refine ⟨d.stored, d'.stored, h.decode, h'.decode,
    DecimalText.numberValue?_stored_iff h.digital, fun hexact hexact' => ?_⟩
  obtain ⟨u, hu⟩ := DecimalText.exists_storedAs h.digital hexact
  obtain ⟨u', hu'⟩ := DecimalText.exists_storedAs h'.digital hexact'
  exact hu.ofJson_eq_iff hu'

/-- Two texts of one number, one of them with a whole part of more than 96 bits and a zero at the
end. -/
theorem decode_exact_sample :
    ∃ w w', decimal.decode "+99999999999999999999999999999.50" = .ok (.number w) ∧
      decimal.decode "099999999999999999999999999999.5" = .ok (.number w') ∧
        FieldValue.ofJson (.number w) = FieldValue.ofJson (.number w') := by
  let d : DecimalText := ⟨false, "99999999999999999999999999999".toList, ['5', '0']⟩
  let d' : DecimalText := ⟨false, "099999999999999999999999999999".toList, ['5']⟩
  have h : d.Spells "+99999999999999999999999999999.50".toList :=
    ⟨by decide +kernel, .inr (by decide +kernel), ['+'], ".50".toList, by decide +kernel,
      .inr rfl, .inl (by decide +kernel)⟩
  have h' : d'.Spells "099999999999999999999999999999.5".toList :=
    ⟨by decide +kernel, .inr (by decide +kernel), [], ".5".toList, by decide +kernel,
      .inl rfl, .inl (by decide +kernel)⟩
  obtain ⟨w, w', hdecode, hdecode', -, hsame⟩ := decode_exact h h'
  refine ⟨w, w', hdecode, hdecode', (hsame (.inr ?_) (.inr ?_)).2 ?_⟩
  · decide +kernel
  · decide +kernel
  · decide +kernel

/-- The text of a number with 29 digits behind the point is read as zero. -/
theorem decode_rounds : ¬∀ s (d : DecimalText), d.Spells s.toList →
    ∃ w, decimal.decode s = .ok (.number w) ∧ numberValue? w = some d.value := by
  intro hall
  let d : DecimalText := ⟨false, ['0'], "00000000000000000000000000001".toList⟩
  have h : d.Spells "0.00000000000000000000000000001".toList :=
    ⟨by decide +kernel, .inl (by decide +kernel), [], ".00000000000000000000000000001".toList,
      by decide +kernel, .inl rfl, .inl (by decide +kernel)⟩
  obtain ⟨w, hdecode, hvalue⟩ := hall _ d h
  have hzero : decimal.decode "0.00000000000000000000000000001" = .ok (.number "0") := by
    decide +kernel
  rw [hdecode] at hzero
  cases hzero
  exact absurd hvalue (by decide +kernel)

end Builtin

end Conform
