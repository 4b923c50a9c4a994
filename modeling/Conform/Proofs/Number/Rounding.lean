import Conform.Proofs.Number.Canonical
import Mathlib.Tactic.Linarith
/-!
# Numbers that are not read

Digits that do not fit are rounded away as long as there is a place to give up. So no number is read
from digits exactly if the number is too large: rounded to a whole number it does not fit in 96
bits.
-/

namespace Conform.Decimal

open Builtin

variable {t : DecimalText}

/-- Mantissa and scale of a number in 96 bits. -/
def Fits (p : Nat × Nat) : Prop := p.1 < Nat.pow 2 96 ∧ p.2 ≤ 28

/-- Rounding fails where all 96 bits are set and no digit behind the point was read. -/
theorem fits_of_round {m k : Nat} (digit : Nat) (hm : m < Nat.pow 2 96) (hk : k ≤ 28) :
    (∀ p ∈ round m k digit, Fits p) ∧
      (round m k digit = none ↔ 5 ≤ digit ∧ m + 1 = Nat.pow 2 96 ∧ k = 0) := by
  unfold round
  split
  · refine ⟨?_, iff_of_false nofun (by omega)⟩
    rintro p ⟨⟩
    exact ⟨hm, hk⟩
  · split
    · rename_i hnext
      refine ⟨?_, iff_of_false nofun (by omega)⟩
      rintro p ⟨⟩
      exact ⟨hnext, hk⟩
    · split
      · exact ⟨nofun, iff_of_true rfl (by omega)⟩
      · refine ⟨?_, iff_of_false nofun (by omega)⟩
        rintro p ⟨⟩
        refine ⟨?_, ?_⟩ <;> dsimp only <;> omega

theorem fits_of_readFraction : ∀ {ds : List Char} {m k : Nat}, (∀ c ∈ ds, c.isDigit = true) →
    m < Nat.pow 2 96 → k ≤ 28 → (∀ p ∈ readFraction m k ds, Fits p) ∧
      (readFraction m k ds = none ↔
        ∃ c rest, ds = c :: rest ∧ 5 ≤ c.toNat - 48 ∧ m + 1 = Nat.pow 2 96 ∧ k = 0)
  | [], m, k, _, hm, hk => by
    refine ⟨?_, by simp [readFraction]⟩
    rintro p ⟨⟩
    exact ⟨hm, hk⟩
  | c :: rest, m, k, h, hm, hk => by
    have hrest := fun x hx => h x (List.mem_cons_of_mem c hx)
    rw [readFraction, if_pos (h c List.mem_cons_self)]
    dsimp only
    split
    · rename_i hnext
      obtain ⟨hfits, hnone⟩ := fits_of_readFraction (k := k + 1) hrest hnext.2 (by omega)
      -- with a further digit behind the point there is a place to give up
      refine ⟨hfits, hnone.trans ⟨?_, ?_⟩⟩
      · rintro ⟨_, _, _, _, _, hzero⟩
        cases hzero
      · rintro ⟨_, _, _, _, hfull, _⟩
        have hlarge : 1 < Nat.pow 2 96 := by decide
        omega
    · rw [if_pos (List.all_eq_true.2 hrest)]
      obtain ⟨hfits, hnone⟩ := fits_of_round (c.toNat - 48) hm hk
      exact ⟨hfits, hnone.trans (by simp)⟩

theorem ofParts?_eq_none_iff {negative : Bool} {r : Option (Nat × Nat)} (h : ∀ p ∈ r, Fits p) :
    (r.bind fun p => ofParts? negative p.1 p.2) = none ↔ r = none := by
  cases r with
  | none => simp
  | some p => simp [ofParts?, show _ ∧ _ from h p rfl]

/-- A whole part that fits fails where it sets all 96 bits and the first digit behind the point
rounds it up. -/
theorem read?_eq_none_iff_of_fits (hne : t.whole ≠ []) (h : t.IsDigital)
    (hfits : Nat.ofDigitChars 10 t.whole 0 < Nat.pow 2 96) : read? t.written = none ↔
      ∃ c rest, t.fraction = c :: rest ∧ 5 ≤ c.toNat - 48 ∧
        Nat.ofDigitChars 10 t.whole 0 + 1 = Nat.pow 2 96 := by
  rw [read?_written hne h, readWhole_fits h.whole hfits]
  have hpoint : readWhole (Nat.ofDigitChars 10 t.whole 0)
      (if t.fraction.isEmpty then [] else '.' :: t.fraction) =
        readFraction (Nat.ofDigitChars 10 t.whole 0) 0 t.fraction := by
    cases t.fraction <;> rfl
  obtain ⟨hall, hnone⟩ := fits_of_readFraction h.fraction hfits (Nat.zero_le 28)
  rw [hpoint, ofParts?_eq_none_iff hall, hnone]
  simp

theorem read?_eq_none_iff_digits (hne : t.whole ≠ []) (h : t.IsDigital) : read? t.written = none ↔
    2 * (10 ^ t.fraction.length * Nat.pow 2 96) ≤ 2 * t.digits + 10 ^ t.fraction.length := by
  rw [DecimalText.digits_eq]
  have hlt := Integer.ofDigitChars_lt h.fraction
  by_cases hover : Nat.pow 2 96 ≤ Nat.ofDigitChars 10 t.whole 0
  · have hmul := Nat.mul_le_mul_left (10 ^ t.fraction.length) hover
    generalize 10 ^ t.fraction.length = n at hmul ⊢
    exact iff_of_true (read?_overflows hne h hover) (by omega)
  · have hfits : Nat.ofDigitChars 10 t.whole 0 < Nat.pow 2 96 := Nat.lt_of_not_ge hover
    rw [read?_eq_none_iff_of_fits hne h hfits]
    generalize Nat.ofDigitChars 10 t.whole 0 = whole at *
    generalize Nat.pow 2 96 = bound at *
    obtain ⟨k, rfl⟩ := Nat.exists_eq_add_of_lt hfits
    cases hfraction : t.fraction with
    | nil =>
        refine iff_of_false ?_ (by simp [Nat.ofDigitChars_nil]; omega)
        rintro ⟨_, _, heq, -⟩
        cases heq
    | cons c rest =>
        have hrest : Nat.ofDigitChars 10 rest 0 < 10 ^ rest.length :=
          Integer.ofDigitChars_lt fun x hx => h.fraction x (hfraction ▸ List.mem_cons_of_mem _ hx)
        have hc := Integer.digit_lt (h.fraction c (hfraction ▸ List.mem_cons_self))
        rw [Integer.ofDigitChars_first, List.length_cons, pow_succ]
        generalize 10 ^ rest.length = n at *
        have hmul : n * 10 * (whole + k + 1) = n * 10 * whole + n * 10 * k + n * 10 := by ring
        have hdigit := Nat.mul_le_mul_left n (Nat.le_of_lt_succ hc)
        constructor
        · rintro ⟨_, _, heq, hup, hfull⟩
          cases heq
          obtain rfl : k = 0 := by omega
          have hup := Nat.mul_le_mul_left n hup
          omega
        · intro hle
          refine ⟨c, rest, rfl, ?_, ?_⟩
          · by_contra hdown
            have hdown := Nat.mul_le_mul_left n (Nat.le_of_lt_succ (Nat.lt_of_not_ge hdown))
            omega
          · by_contra hmore
            have hmore := Nat.mul_le_mul_left (n * 10) (show 1 ≤ k by omega)
            omega

/-- No number is read where the number, rounded to a whole one, does not fit in 96 bits. -/
theorem read?_eq_none_iff (hne : t.whole ≠ []) (h : t.IsDigital) :
    read? t.written = none ↔ (2 : ℚ) ^ 96 ≤ |t.value| + 1 / 2 := by
  have hpower : (0 : ℚ) < 10 ^ t.fraction.length := by positivity
  have hlarge : (2 : ℚ) ^ 96 ≤ |t.value| + 1 / 2 ↔
      2 * (10 ^ t.fraction.length * (2 : ℚ) ^ 96) ≤ 2 * t.digits + 10 ^ t.fraction.length := by
    rw [DecimalText.abs_value, div_add_div _ _ hpower.ne' two_ne_zero,
      le_div_iff₀ (by positivity)]
    constructor <;> intro hle <;> linarith
  rw [read?_eq_none_iff_digits hne h, hlarge]
  exact_mod_cast Iff.rfl

end Conform.Decimal
