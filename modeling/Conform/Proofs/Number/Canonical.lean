import Conform.Proofs.Number.Decimal
import Mathlib.Tactic.Positivity
import Mathlib.Tactic.Ring
/-!
# Canonical notation

A number has one canonical notation: no zero stands in front or at the end, and zero has no sign.
The number gives the sign, and the last digit behind the point, not being zero, tells how many there
are. Then the digits without the point are the same, and digits of one number differ in the zeros in
front alone.
-/

namespace Conform

/-! ## Digits of a number -/

namespace Integer

variable {ds es : List Char}

theorem digit_lt {c : Char} (h : c.isDigit = true) : c.toNat - 48 < 10 := by
  have hcode := Char.isDigit_iff_toNat.1 h
  simp at hcode
  omega

theorem digit_pos {c : Char} (h : c.isDigit = true) (hc : c ≠ '0') : 0 < c.toNat - 48 := by
  have hcode : 48 ≤ c.toNat ∧ c.toNat ≤ 57 := by simpa using Char.isDigit_iff_toNat.1 h
  have hne : c.toNat ≠ 48 := fun heq => hc (Char.toNat_inj.1 heq)
  omega

/-- The first digit counts for as many places as follow it. -/
theorem ofDigitChars_first (c : Char) (ds : List Char) :
    Nat.ofDigitChars 10 (c :: ds) 0 =
      10 ^ ds.length * (c.toNat - 48) + Nat.ofDigitChars 10 ds 0 := by
  rw [Nat.ofDigitChars_cons, Nat.ofDigitChars_eq_ofDigitChars_zero, Nat.mul_zero, Nat.zero_add]
  rfl

theorem ofDigitChars_lt (h : ∀ c ∈ ds, c.isDigit = true) :
    Nat.ofDigitChars 10 ds 0 < 10 ^ ds.length := by
  induction ds with
  | nil => exact Nat.one_pos
  | cons c rest ih =>
      rw [ofDigitChars_first, List.length_cons, pow_succ, Nat.mul_comm (10 ^ rest.length) 10]
      exact Nat.mul_add_lt_mul_of_lt_of_lt (digit_lt (h c List.mem_cons_self))
        (ih fun c hc => h c (List.mem_cons_of_mem _ hc))

theorem pow_le_ofDigitChars {c : Char} (h : c.isDigit = true) (hc : c ≠ '0') (ds : List Char) :
    10 ^ ds.length ≤ Nat.ofDigitChars 10 (c :: ds) 0 := by
  rw [ofDigitChars_first]
  exact (Nat.le_mul_of_pos_right _ (digit_pos h hc)).trans (Nat.le_add_right ..)

/-- Parts of a sum, a multiple and a rest that is smaller. -/
theorem mul_add_inj {m a b x y : Nat} (hx : x < m) (hy : y < m) (h : m * a + x = m * b + y) :
    a = b ∧ x = y := by
  have hm : 0 < m := by omega
  have hdiv := congrArg (· / m) h
  have hmod := congrArg (· % m) h
  simp only [Nat.mul_add_div hm, Nat.div_eq_of_lt hx, Nat.div_eq_of_lt hy, Nat.add_zero] at hdiv
  simp only [Nat.mul_add_mod, Nat.mod_eq_of_lt hx, Nat.mod_eq_of_lt hy] at hmod
  exact ⟨hdiv, hmod⟩

/-- As many digits with the same number are the same. -/
theorem eq_of_ofDigitChars : ∀ {ds es : List Char}, (∀ c ∈ ds, c.isDigit = true) →
    (∀ c ∈ es, c.isDigit = true) → ds.length = es.length →
    Nat.ofDigitChars 10 ds 0 = Nat.ofDigitChars 10 es 0 → ds = es
  | [], [], _, _, _, _ => rfl
  | c :: ds, c' :: es, hds, hes, hlength, h => by
    have hlength : ds.length = es.length := by simpa using hlength
    have hdigits := fun x hx => hds x (List.mem_cons_of_mem _ hx)
    have hdigits' := fun x hx => hes x (List.mem_cons_of_mem _ hx)
    rw [ofDigitChars_first, ofDigitChars_first, hlength] at h
    obtain ⟨hfirst, hrest⟩ :=
      mul_add_inj (hlength ▸ ofDigitChars_lt hdigits) (ofDigitChars_lt hdigits') h
    rw [eq_of_ofDigitChars hdigits hdigits' hlength hrest]
    have hc : 48 ≤ c.toNat ∧ c.toNat ≤ 57 := by
      simpa using Char.isDigit_iff_toNat.1 (hds c List.mem_cons_self)
    have hc' : 48 ≤ c'.toNat ∧ c'.toNat ≤ 57 := by
      simpa using Char.isDigit_iff_toNat.1 (hes c' List.mem_cons_self)
    rw [Char.toNat_inj.1 (show c.toNat = c'.toNat by omega)]

theorem length_leading_le (hne : ds ≠ []) : (leading ds).length ≤ ds.length := by
  unfold leading
  split
  · exact List.length_pos_of_ne_nil hne
  · exact (List.dropWhile_sublist _).length_le

/-- Where no zero is to drop, none stands in front of other digits. -/
theorem ne_zero_of_leading {c : Char} (h : leading (c :: ds) = c :: ds) (hne : ds ≠ []) :
    c ≠ '0' := by
  rintro rfl
  have hshort := length_leading_le hne
  have hsame : leading ('0' :: ds) = leading ds := by rw [leading, significant_zero, leading]
  rw [← hsame, h, List.length_cons] at hshort
  omega

theorem length_le_of_ofDigitChars (hds : ∀ c ∈ ds, c.isDigit = true)
    (hes : ∀ c ∈ es, c.isDigit = true) (hne : ds ≠ []) (hleading : leading es = es)
    (h : Nat.ofDigitChars 10 es 0 = Nat.ofDigitChars 10 ds 0) : es.length ≤ ds.length := by
  by_contra hlong
  have hpos := List.length_pos_of_ne_nil hne
  have hpos' : 0 < es.length := by omega
  obtain ⟨c, rest, rfl⟩ := List.exists_cons_of_ne_nil (List.ne_nil_of_length_pos hpos')
  rw [List.length_cons] at hlong
  have hmore : 0 < rest.length := by omega
  have hc := ne_zero_of_leading hleading (List.ne_nil_of_length_pos hmore)
  have hsmall := ofDigitChars_lt hds
  have hlarge := pow_le_ofDigitChars (hes c List.mem_cons_self) hc rest
  have hpow : 10 ^ ds.length ≤ 10 ^ rest.length := Nat.pow_le_pow_right (by decide) (by omega)
  omega

/-- Digits without zeros in front are those of their number. -/
theorem leading_inj (hds : ∀ c ∈ ds, c.isDigit = true) (hes : ∀ c ∈ es, c.isDigit = true)
    (hleading : leading ds = ds) (hleading' : leading es = es)
    (h : Nat.ofDigitChars 10 ds 0 = Nat.ofDigitChars 10 es 0) : ds = es := by
  have hne : ds ≠ [] := hleading ▸ leading_ne_nil ds
  have hne' : es ≠ [] := hleading' ▸ leading_ne_nil es
  exact eq_of_ofDigitChars hds hes (le_antisymm
    (length_le_of_ofDigitChars hes hds hne' hleading h)
    (length_le_of_ofDigitChars hds hes hne hleading' h.symm)) h

end Integer

/-! ## Decimal notation -/

namespace Builtin.DecimalText

variable {t u : DecimalText}

/-- No zero stands in front or at the end, and zero has no sign. -/
structure IsCanonical (t : DecimalText) : Prop where
  digital : t.IsDigital
  trimmed : t.trimmed = t
  sign : t.digits = 0 → t.negative = false

theorem digits_eq (t : DecimalText) : t.digits =
    10 ^ t.fraction.length * Nat.ofDigitChars 10 t.whole 0 + Nat.ofDigitChars 10 t.fraction 0 := by
  rw [digits, Nat.ofDigitChars_append, Nat.ofDigitChars_eq_ofDigitChars_zero]

/-- The last digit is not zero where it stands behind the point. -/
theorem last_ne_zero (h : t.IsDigital) (htrimmed : t.trimmed = t) (hne : t.fraction ≠ []) :
    t.digits % 10 ≠ 0 := by
  have hlast := List.rdropWhile_eq_self_iff.1 (congrArg DecimalText.fraction htrimmed) hne
  have hdigit := h.fraction _ (List.getLast_mem hne)
  have hpos := Integer.digit_pos hdigit (by simpa using hlast)
  have hlt := Integer.digit_lt hdigit
  rw [digits, ← List.dropLast_append_getLast hne, ← List.append_assoc, Nat.ofDigitChars_append,
    Nat.ofDigitChars_eq_ofDigitChars_zero, Integer.ofDigitChars_first]
  simp
  omega

theorem value_neg_iff (t : DecimalText) : t.value < 0 ↔ t.negative = true ∧ t.digits ≠ 0 := by
  have hpower : (0 : ℚ) < 10 ^ t.fraction.length := by positivity
  have hdigits : (0 : ℚ) ≤ t.digits := Nat.cast_nonneg _
  rw [value, div_neg_iff]
  cases t.negative with
  | false => simp [hpower.not_gt, hdigits.not_gt]
  | true => simp [hpower, hpower.not_gt, Nat.pos_iff_ne_zero]

theorem IsCanonical.negative_iff (h : t.IsCanonical) : t.negative = true ↔ t.value < 0 := by
  rw [value_neg_iff]
  refine ⟨fun hnegative => ⟨hnegative, fun hzero => ?_⟩, And.left⟩
  rw [h.sign hzero] at hnegative
  cases hnegative

theorem abs_value (t : DecimalText) : |t.value| = t.digits / 10 ^ t.fraction.length := by
  have hpower : (0 : ℚ) < 10 ^ t.fraction.length := by positivity
  rw [value, abs_div, abs_mul, Nat.abs_cast, abs_of_pos hpower]
  cases t.negative <;> simp

/-- Equal numbers have the same digits, up to zeros at the end. -/
theorem digits_mul_eq (h : t.value = u.value) :
    t.digits * 10 ^ u.fraction.length = u.digits * 10 ^ t.fraction.length := by
  have hsame := congrArg abs h
  rw [abs_value, abs_value, div_eq_div_iff (by positivity) (by positivity)] at hsame
  exact_mod_cast hsame

theorem IsCanonical.length_fraction_le (h : u.IsCanonical)
    (heq : t.digits * 10 ^ u.fraction.length = u.digits * 10 ^ t.fraction.length) :
    u.fraction.length ≤ t.fraction.length := by
  by_contra hlong
  obtain ⟨k, hk⟩ := Nat.exists_eq_add_of_lt (Nat.lt_of_not_ge hlong)
  have hpos : 0 < u.fraction.length := by omega
  refine last_ne_zero h.digital h.trimmed (List.ne_nil_of_length_pos hpos) ?_
  have hdigits : u.digits = 10 * (t.digits * 10 ^ k) := by
    refine Nat.eq_of_mul_eq_mul_right (Nat.pow_pos (n := t.fraction.length) (by decide : 0 < 10)) ?_
    rw [← heq, hk, pow_succ, pow_add]
    ring
  rw [hdigits, Nat.mul_mod_right]

/-- A number has one canonical notation. -/
theorem IsCanonical.eq_of_value (ht : t.IsCanonical) (hu : u.IsCanonical)
    (h : t.value = u.value) : t = u := by
  have hmul := digits_mul_eq h
  have hlength : t.fraction.length = u.fraction.length :=
    le_antisymm (ht.length_fraction_le hmul.symm) (hu.length_fraction_le hmul)
  have hdigits : t.digits = u.digits := by
    rw [hlength] at hmul
    exact Nat.eq_of_mul_eq_mul_right (Nat.pow_pos (by decide)) hmul
  rw [digits_eq, digits_eq, hlength] at hdigits
  obtain ⟨hwhole, hfraction⟩ := Integer.mul_add_inj
    (hlength ▸ Integer.ofDigitChars_lt ht.digital.fraction)
    (Integer.ofDigitChars_lt hu.digital.fraction) hdigits
  have hsign : t.negative = u.negative := by
    rw [Bool.eq_iff_iff, ht.negative_iff, hu.negative_iff, h]
  have hwhole := Integer.leading_inj ht.digital.whole hu.digital.whole
    (congrArg DecimalText.whole ht.trimmed) (congrArg DecimalText.whole hu.trimmed) hwhole
  have hfraction := Integer.eq_of_ofDigitChars ht.digital.fraction hu.digital.fraction hlength
    hfraction
  cases t
  cases u
  simp_all

end Builtin.DecimalText

/-- A normal number is written in canonical notation. -/
theorem Decimal.IsNormal.isCanonical_parts {d : Decimal} (h : d.IsNormal) :
    d.parts.IsCanonical where
  digital := d.isDigital_parts
  trimmed := h.trimmed_parts
  sign hzero := by
    rw [digits_parts] at hzero
    rw [h.zero hzero]
    rfl

end Conform
