import Conform.Proofs.Number.Notation
/-!
# Decimal numbers as text

Digits that fit are read without rounding, and a whole part that does not fit is not read at all. So
the text of a decimal number is read as that number. A normal number, one without zeros at the end
of its fraction, has a text without zeros in front and at the end.
-/

namespace Conform.Decimal

open Builtin

variable {ds : List Char} {t : DecimalText} {m k : Nat}

/-! ## Reading digits -/

theorem le_ofDigitChars (ds : List Char) (m : Nat) : m ≤ Nat.ofDigitChars 10 ds m := by
  rw [Nat.ofDigitChars_eq_ofDigitChars_zero]
  exact (Nat.le_mul_of_pos_left m (Nat.pow_pos (by decide))).trans (Nat.le_add_right ..)

/-- The next digit of a number. -/
theorem ofDigitChars_next (c : Char) (ds : List Char) (m : Nat) :
    Nat.ofDigitChars 10 (c :: ds) m = Nat.ofDigitChars 10 ds (m * 10 + (c.toNat - 48)) := by
  rw [Nat.ofDigitChars_cons, Nat.mul_comm]
  rfl

theorem readFraction_fits : ∀ {ds : List Char} {m k : Nat}, (∀ c ∈ ds, c.isDigit = true) →
    Nat.ofDigitChars 10 ds m < Nat.pow 2 96 → k + ds.length ≤ 28 →
    readFraction m k ds = some (Nat.ofDigitChars 10 ds m, k + ds.length)
  | [], _, _, _, _, _ => rfl
  | c :: rest, m, k, h, hfits, hscale => by
    rw [ofDigitChars_next] at hfits ⊢
    rw [List.length_cons] at hscale ⊢
    have hnext := (le_ofDigitChars rest (m * 10 + (c.toNat - 48))).trans_lt hfits
    rw [readFraction, if_pos (h c List.mem_cons_self), if_pos ⟨by omega, hnext⟩,
      readFraction_fits (fun c hc => h c (List.mem_cons_of_mem _ hc)) hfits (by omega)]
    exact congrArg some (congrArg _ (by omega))

theorem readWhole_fits {rest : List Char} : ∀ {ds : List Char} {m : Nat},
    (∀ c ∈ ds, c.isDigit = true) → Nat.ofDigitChars 10 ds m < Nat.pow 2 96 →
    readWhole m (ds ++ rest) = readWhole (Nat.ofDigitChars 10 ds m) rest
  | [], _, _, _ => rfl
  | c :: ds, m, h, hfits => by
    rw [ofDigitChars_next] at hfits ⊢
    have hnext := (le_ofDigitChars ds (m * 10 + (c.toNat - 48))).trans_lt hfits
    rw [List.cons_append, readWhole, if_pos (h c List.mem_cons_self)]
    dsimp only
    rw [if_pos hnext, readWhole_fits (fun c hc => h c (List.mem_cons_of_mem _ hc)) hfits]

/-- A whole part that does not fit in 96 bits ends the reading. -/
theorem readWhole_overflows {rest : List Char} : ∀ {ds : List Char} {m : Nat},
    (∀ c ∈ ds, c.isDigit = true) → m < Nat.pow 2 96 → Nat.pow 2 96 ≤ Nat.ofDigitChars 10 ds m →
    readWhole m (ds ++ rest) = none
  | [], m, _, hm, hover => absurd hm (Nat.not_lt.2 hover)
  | c :: ds, m, h, _, hover => by
    rw [ofDigitChars_next] at hover
    rw [List.cons_append, readWhole, if_pos (h c List.mem_cons_self)]
    dsimp only
    split
    · rename_i hnext
      exact readWhole_overflows (fun c hc => h c (List.mem_cons_of_mem _ hc)) hnext hover
    · rfl

/-- A number is read behind its sign. -/
theorem read?_eq (cs : List Char) : read? cs =
    if startsNumber (Integer.readSign cs).2 then
      (readWhole 0 (Integer.readSign cs).2).bind fun p => ofParts? (Integer.readSign cs).1 p.1 p.2
    else none := by
  unfold read?
  split
  rename_i hsign
  split at hsign
  all_goals
    obtain ⟨rfl, rfl⟩ := Prod.mk.inj hsign
    simp_all only [Integer.readSign]
    cases readWhole 0 _ <;> rfl

theorem startsNumber_cons {c : Char} (hc : c.isDigit = true) (rest : List Char) :
    startsNumber (c :: rest) = true := by
  unfold startsNumber
  split
  · rename_i heq
    rw [(List.cons.inj heq).1] at hc
    exact absurd hc (by decide)
  · rename_i heq
    exact (List.cons.inj heq).1 ▸ hc
  · rename_i heq
    cases heq

/-- The number of parts in decimal notation is read from their digits. -/
theorem read?_written (hne : t.whole ≠ []) (h : t.IsDigital) :
    read? t.written =
      (readWhole 0 (t.whole ++ if t.fraction.isEmpty then [] else '.' :: t.fraction)).bind
        fun p => ofParts? t.negative p.1 p.2 := by
  have hsign := Integer.readSign_signed t.negative h.whole
    (if t.fraction.isEmpty then [] else '.' :: t.fraction) (.inr hne)
  rw [read?_eq, DecimalText.written, List.append_assoc, hsign]
  obtain ⟨c, rest, hwhole⟩ := List.exists_cons_of_ne_nil hne
  rw [hwhole, List.cons_append,
    if_pos (startsNumber_cons (h.whole c (hwhole ▸ List.mem_cons_self)) _)]

/-- Digits that fit are read as they are. -/
theorem read?_fits (hne : t.whole ≠ []) (h : t.IsDigital) (hfits : t.digits < Nat.pow 2 96)
    (hscale : t.fraction.length ≤ 28) :
    read? t.written = some ⟨t.negative, t.digits, t.fraction.length, hfits, hscale⟩ := by
  have hdigits : t.digits = Nat.ofDigitChars 10 t.fraction (Nat.ofDigitChars 10 t.whole 0) :=
    Nat.ofDigitChars_append ..
  have hwhole : Nat.ofDigitChars 10 t.whole 0 < Nat.pow 2 96 :=
    (le_ofDigitChars t.fraction _).trans_lt (hdigits ▸ hfits)
  have hparts : readWhole 0 (t.whole ++ if t.fraction.isEmpty then [] else '.' :: t.fraction) =
      some (t.digits, t.fraction.length) := by
    rw [readWhole_fits h.whole hwhole, hdigits]
    cases hfraction : t.fraction with
    | nil => rfl
    | cons c rest =>
        have hread := readFraction_fits (k := 0) h.fraction (hdigits ▸ hfits) (by omega)
        rw [hfraction, Nat.zero_add] at hread
        simpa [readWhole] using hread
  rw [read?_written hne h, hparts]
  exact dif_pos ⟨hfits, hscale⟩

theorem read?_overflows (hne : t.whole ≠ []) (h : t.IsDigital)
    (hover : Nat.pow 2 96 ≤ Nat.ofDigitChars 10 t.whole 0) : read? t.written = none := by
  rw [read?_written hne h, readWhole_overflows h.whole (by decide) hover]
  rfl

/-! ## The text of a number -/

/-- The digits of a number with a zero in front of a point without digits before it. -/
def padded (d : Decimal) : List Char :=
  List.replicate (d.scale + 1 - (Nat.toDigits 10 d.mantissa).length) '0' ++
    Nat.toDigits 10 d.mantissa

/-- The number in decimal notation. -/
def parts (d : Decimal) : DecimalText :=
  ⟨d.negative, d.padded.take (d.padded.length - d.scale), d.padded.drop (d.padded.length - d.scale)⟩

/-- The number that it is. -/
def value (d : Decimal) : ℚ := (if d.negative then -1 else 1) * d.mantissa / 10 ^ d.scale

variable {d : Decimal}

theorem scale_lt_length_padded (d : Decimal) : d.scale < d.padded.length := by
  rw [padded, List.length_append, List.length_replicate]
  omega

theorem length_fraction (d : Decimal) : d.parts.fraction.length = d.scale := by
  have hlt := d.scale_lt_length_padded
  simp only [parts, List.length_drop]
  omega

theorem whole_ne_nil (d : Decimal) : d.parts.whole ≠ [] := by
  have hlt := d.scale_lt_length_padded
  refine List.ne_nil_of_length_pos ?_
  simp only [parts, List.length_take]
  omega

theorem whole_append_fraction (d : Decimal) : d.parts.whole ++ d.parts.fraction = d.padded :=
  List.take_append_drop ..

theorem isDigital_parts (d : Decimal) : d.parts.IsDigital := by
  intro c hc
  rw [whole_append_fraction, padded] at hc
  rcases List.mem_append.1 hc with hc | hc
  · rw [List.eq_of_mem_replicate hc]
    decide
  · exact Nat.isDigit_of_mem_toDigits (by decide) (by decide) hc

theorem digits_parts (d : Decimal) : d.parts.digits = d.mantissa := by
  rw [DecimalText.digits, whole_append_fraction, padded, Nat.ofDigitChars_append,
    Nat.ofDigitChars_replicate_zero, Nat.mul_zero, Nat.ofDigitChars_ten_toDigits]

theorem value_parts (d : Decimal) : d.parts.value = d.value := by
  rw [DecimalText.value, digits_parts, length_fraction]
  rfl

theorem text_eq (d : Decimal) : d.text = String.ofList d.parts.written := by
  have hempty : (d.scale = 0) = (d.parts.fraction.isEmpty = true) := by
    rw [List.isEmpty_iff, ← List.length_eq_zero_iff, length_fraction]
  simp only [DecimalText.written, ← hempty]
  rfl

/-- The text of a number is read as that number. -/
theorem read?_parts (d : Decimal) : read? d.parts.written = some d := by
  have hfits : d.parts.digits < Nat.pow 2 96 := d.digits_parts ▸ d.mantissa_lt
  have hscale : d.parts.fraction.length ≤ 28 := d.length_fraction ▸ d.scale_le
  rw [read?_fits d.whole_ne_nil d.isDigital_parts hfits hscale]
  obtain ⟨negative, mantissa, scale, _, _⟩ := d
  simp only [digits_parts, length_fraction, Option.some.injEq, Decimal.mk.injEq, and_true]
  rfl

/-! ## Normal numbers -/

/-- No zero ends the fraction, and zero has no sign. -/
structure IsNormal (d : Decimal) : Prop where
  zero : d.mantissa = 0 → d = Decimal.zero
  last : d.scale ≠ 0 → d.mantissa % 10 ≠ 0

theorem stripZeros_spec (mantissa scale : Nat) (hne : mantissa ≠ 0) :
    (stripZeros mantissa scale).1 ≠ 0 ∧
      ((stripZeros mantissa scale).2 ≠ 0 → (stripZeros mantissa scale).1 % 10 ≠ 0) ∧
      ∃ n, mantissa = (stripZeros mantissa scale).1 * 10 ^ n ∧
        scale = (stripZeros mantissa scale).2 + n := by
  induction scale generalizing mantissa with
  | zero => exact ⟨hne, fun h => absurd rfl h, 0, (Nat.mul_one _).symm, rfl⟩
  | succ scale ih =>
      unfold stripZeros
      split
      · rename_i hzero
        obtain ⟨hpos, hlast, n, hmantissa, hscale⟩ := ih (mantissa / 10) (by omega)
        refine ⟨hpos, hlast, n + 1, ?_, by omega⟩
        rw [pow_succ, ← Nat.mul_assoc, ← hmantissa]
        omega
      · rename_i hlast
        exact ⟨hne, fun _ => hlast, 0, (Nat.mul_one _).symm, rfl⟩

theorem isNormal_normalize (d : Decimal) : d.normalize.IsNormal := by
  unfold normalize
  split
  · exact ⟨fun _ => rfl, fun h => absurd rfl h⟩
  · rename_i hne
    obtain ⟨hpos, hlast, -⟩ := stripZeros_spec d.mantissa d.scale hne
    exact ⟨fun h => absurd h hpos, hlast⟩

theorem IsNormal.normalize_eq (h : d.IsNormal) : d.normalize = d := by
  unfold normalize
  split
  · rename_i hzero
    exact (h.zero hzero).symm
  · obtain ⟨negative, mantissa, scale, _, _⟩ := d
    have hstrip : stripZeros mantissa scale = (mantissa, scale) := by
      cases scale with
      | zero => rfl
      | succ scale => exact if_neg (h.last (Nat.succ_ne_zero scale))
    simp only [hstrip]

/-- A normal number is the same number. -/
theorem value_normalize (d : Decimal) : d.normalize.value = d.value := by
  unfold normalize
  split
  · rename_i hzero
    simp [value, hzero, zero]
  · rename_i hne
    obtain ⟨-, -, n, hmantissa, hscale⟩ := stripZeros_spec d.mantissa d.scale hne
    have hquotient : (d.mantissa : ℚ) / 10 ^ d.scale =
        (stripZeros d.mantissa d.scale).1 / 10 ^ (stripZeros d.mantissa d.scale).2 := by
      have hpower : (10 : ℚ) ^ n ≠ 0 := pow_ne_zero n (by norm_num)
      generalize stripZeros d.mantissa d.scale = p at hmantissa hscale ⊢
      rw [hmantissa, hscale, pow_add]
      push_cast
      field_simp
    simp only [value, mul_div_assoc, hquotient]

/-! ## Trimmed texts -/

theorem head_toDigits {n : Nat} (hn : n ≠ 0) :
    ∀ rest, Nat.toDigits 10 n ≠ '0' :: rest := by
  induction n using Nat.strongRecOn with
  | ind n ih =>
      intro rest heq
      rw [Nat.toDigits_eq_if (by decide)] at heq
      split at heq
      · have hdigit := congrArg Char.toNat (List.cons.inj heq).1
        rw [Nat.toNat_digitChar_of_lt_ten (by omega)] at hdigit
        simp at hdigit
        omega
      · obtain ⟨c, more, hmore⟩ :=
          List.exists_cons_of_ne_nil (Nat.toDigits_ne_nil (b := 10) (n := n / 10))
        rw [hmore, List.cons_append] at heq
        exact ih (n / 10) (by omega) (by omega) more ((List.cons.inj heq).1 ▸ hmore)

theorem getLast_toDigits (n : Nat) :
    (Nat.toDigits 10 n).getLast Nat.toDigits_ne_nil = (n % 10).digitChar := by
  have h := Nat.toDigits_eq_if (b := 10) (n := n) (by decide)
  split at h
  · rename_i hlt
    simp [h, Nat.mod_eq_of_lt hlt]
  · simp [h]

theorem leading_whole (d : Decimal) : Integer.leading d.parts.whole = d.parts.whole := by
  by_cases hlong : (Nat.toDigits 10 d.mantissa).length ≤ d.scale
  · have hlength : d.parts.whole.length = 1 := by
      simp only [parts, padded, List.length_take, List.length_append, List.length_replicate]
      omega
    obtain ⟨c, hc⟩ := List.length_eq_one_iff.1 hlength
    rw [hc]
    exact Integer.leading_singleton c
  · have hpadded : d.padded = Nat.toDigits 10 d.mantissa := by
      rw [padded, Nat.sub_eq_zero_of_le (by omega)]
      rfl
    by_cases hzero : d.mantissa = 0
    · have hwhole : d.parts.whole = ['0'] := by
        have hscale : d.scale = 0 := by
          rw [hzero] at hlong
          simpa using hlong
        simp [parts, hpadded, hzero, hscale]
      rw [hwhole]
      rfl
    · refine Integer.leading_eq_self d.whole_ne_nil fun rest hrest => head_toDigits hzero ?_ ?_
      · exact rest ++ d.parts.fraction
      · rw [← hpadded, ← whole_append_fraction, hrest, List.cons_append]

theorem IsNormal.trimmed_parts (h : d.IsNormal) : d.parts.trimmed = d.parts := by
  have hfraction : d.parts.fraction.rdropWhile (· = '0') = d.parts.fraction := by
    refine List.rdropWhile_eq_self_iff.2 fun hne => ?_
    have hscale : d.scale ≠ 0 := by
      rw [← length_fraction]
      exact fun hlength => hne (List.length_eq_zero_iff.1 hlength)
    have hlast : d.parts.fraction.getLast hne = (d.mantissa % 10).digitChar := by
      have hwhole : (d.parts.whole ++ d.parts.fraction).getLast (by simp [hne]) =
          d.parts.fraction.getLast hne := List.getLast_append_of_ne_nil _ hne
      rw [← hwhole, ← getLast_toDigits]
      simp only [whole_append_fraction, padded]
      exact List.getLast_append_of_ne_nil _ Nat.toDigits_ne_nil
    intro hdigit
    have hcode := congrArg Char.toNat (of_decide_eq_true hdigit)
    rw [hlast, Nat.toNat_digitChar_of_lt_ten (by omega)] at hcode
    have hpos := h.last hscale
    simp at hcode
    omega
  rw [DecimalText.trimmed, leading_whole, hfraction]

end Conform.Decimal
