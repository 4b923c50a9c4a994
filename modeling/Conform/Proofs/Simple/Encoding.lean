import Conform.Json.Reader
import Conform.Proofs.Simple.RoundTrip
import Mathlib.Algebra.GroupWithZero.Basic
/-!
# Texts of values

A text that a type writes for a value is read again, as a value that means the same: the same
truth value, the same number or the text with its white space normalized. Numbers of all notations
are compared by the rational number that they stand for. The type of decimal numbers does not look
at the number that it writes, so an exponent is written that it does not read.
-/

namespace Conform

/-! ## Numbers -/

namespace Json

open Builtin

/-- The letters in front of an exponent. -/
def isMark (c : Char) : Bool := c = 'e' || c = 'E'

/-- A number in the notation of JSON. -/
def IsNumeral (t : String) : Prop := ∃ u, readNumber t.toList = some (u, [])

/-- The number that a text stands for, with or without an exponent. -/
def numberValue? (t : String) : Option ℚ := do
  let base ← DecimalText.read? (t.toList.takeWhile (!isMark ·))
  match t.toList.dropWhile (!isMark ·) with
  | [] => return base.value
  | _ :: exponent => return base.value * 10 ^ (← Integer.read? exponent)

/-- Two values are the same text, the same truth value or the same number. -/
inductive Same : Json → Json → Prop
  | text (s : String) : Same (.text s) (.text s)
  | bool (x : Bool) : Same (.bool x) (.bool x)
  | number {t u : String} {q : ℚ} :
      numberValue? t = some q → numberValue? u = some q → Same (.number t) (.number u)

theorem Same.eq_text {s : String} {v : Json} (h : Same (.text s) v) : v = .text s := by
  cases h
  rfl

theorem Same.numberValue?_eq {t u : String} (h : Same (.number t) (.number u)) :
    numberValue? t = numberValue? u := by
  cases h with
  | number ht hu => rw [ht, hu]

variable {cs rest digits : List Char} {t u : String} {d : DecimalText}

theorem readDigits_eq_some (h : readDigits cs = some (digits, rest)) :
    cs = digits ++ rest ∧ digits ≠ [] ∧ ∀ c ∈ digits, c.isDigit = true := by
  unfold readDigits at h
  split at h
  · cases h
  · rename_i hne
    cases h
    exact ⟨List.takeWhile_append_dropWhile.symm, hne,
      fun c hc => List.all_eq_true.1 List.all_takeWhile c hc⟩

theorem readWhole_eq_some (h : readWhole cs = some (digits, rest)) :
    cs = digits ++ rest ∧ digits ≠ [] ∧ ∀ c ∈ digits, c.isDigit = true := by
  have hzero : ∀ c ∈ ['0'], c.isDigit = true := List.forall_mem_singleton.2 rfl
  unfold readWhole at h
  split at h
  · split at h
    · split at h
      · cases h
      · cases h
        exact ⟨rfl, by simp, hzero⟩
    · cases h
      exact ⟨rfl, by simp, hzero⟩
  · exact readDigits_eq_some h

theorem readFraction_eq_some {point : List Char} (h : readFraction cs = some (point, rest)) :
    ∃ digits, (∀ c ∈ digits, c.isDigit = true) ∧
      cs = (if digits.isEmpty then [] else '.' :: digits) ++ rest := by
  unfold readFraction at h
  split at h
  · obtain ⟨⟨digits, rest'⟩, hdigits, heq⟩ := Option.map_eq_some_iff.1 h
    cases heq
    obtain ⟨rfl, hne, hall⟩ := readDigits_eq_some hdigits
    exact ⟨digits, hall, by simp [hne]⟩
  · cases h
    exact ⟨[], by simp, rfl⟩

/-- An exponent as it is read: its letter, and a sign and digits behind it. -/
def IsExponent (cs : List Char) : Prop :=
  cs = [] ∨ ∃ c rest, cs = c :: rest ∧ isMark c = true ∧ ∀ x ∈ rest, Text.isBlank x = false

/-- The digits behind the letter and the sign of an exponent. -/
theorem exponent_of_readDigits (c : Char) (sign : List Char) {signed exponent : List Char}
    {written : List Char × List Char → List Char × List Char}
    (h : (readDigits signed).map written = some (exponent, rest))
    (hrest : ∀ p, (written p).2 = p.2) (hmark : isMark c = true)
    (hsign : ∀ x ∈ sign, Text.isBlank x = false) :
    ∃ whole, IsExponent whole ∧ c :: (sign ++ signed) = whole ++ rest := by
  obtain ⟨⟨digits, rest'⟩, hdigits, heq⟩ := Option.map_eq_some_iff.1 h
  obtain ⟨rfl, -, hall⟩ := readDigits_eq_some hdigits
  obtain rfl : rest = rest' := by simpa [heq] using hrest (digits, rest')
  refine ⟨c :: (sign ++ digits), .inr ⟨c, _, rfl, hmark, fun x hx => ?_⟩, by simp⟩
  exact (List.mem_append.1 hx).elim (hsign x) fun hx => Text.isBlank_of_isDigit (hall x hx)

theorem readExponent_eq_some {exponent : List Char}
    (h : readExponent cs = some (exponent, rest)) :
    ∃ whole, IsExponent whole ∧ cs = whole ++ rest := by
  unfold readExponent at h
  split at h
  · split at h
    · exact exponent_of_readDigits 'e' ['-'] h (fun _ => rfl) rfl (List.forall_mem_singleton.2 rfl)
    · exact exponent_of_readDigits 'e' ['+'] h (fun _ => rfl) rfl (List.forall_mem_singleton.2 rfl)
    · exact exponent_of_readDigits 'e' [] h (fun _ => rfl) rfl (List.forall_mem_nil _)
  · split at h
    · exact exponent_of_readDigits 'E' ['-'] h (fun _ => rfl) rfl (List.forall_mem_singleton.2 rfl)
    · exact exponent_of_readDigits 'E' ['+'] h (fun _ => rfl) rfl (List.forall_mem_singleton.2 rfl)
    · exact exponent_of_readDigits 'E' [] h (fun _ => rfl) rfl (List.forall_mem_nil _)
  · cases h
    exact ⟨[], .inl rfl, rfl⟩

/-- A number is one in decimal notation, with an exponent or without. -/
theorem readNumber_eq_some (h : readNumber cs = some (u, rest)) :
    ∃ d : DecimalText, d.whole ≠ [] ∧ d.IsDigital ∧
      ∃ exponent, IsExponent exponent ∧ cs = d.written ++ exponent ++ rest := by
  have hparts : ∃ (negative : Bool) (unsigned : List Char),
      cs = (if negative then ['-'] else []) ++ unsigned ∧
      ∃ whole rest₁, readWhole unsigned = some (whole, rest₁) ∧
      ∃ point rest₂, readFraction rest₁ = some (point, rest₂) ∧
      ∃ exponent, readExponent rest₂ = some (exponent, rest) := by
    unfold readNumber at h
    split at h
    rename_i sign unsigned hsign
    obtain ⟨⟨whole, rest₁⟩, hwhole, h⟩ := Option.bind_eq_some_iff.1 h
    obtain ⟨⟨point, rest₂⟩, hpoint, h⟩ := Option.bind_eq_some_iff.1 h
    obtain ⟨⟨exponent, rest₃⟩, hexponent, h⟩ := Option.bind_eq_some_iff.1 h
    cases h
    split at hsign
    · cases hsign
      exact ⟨true, _, rfl, _, _, hwhole, _, _, hpoint, _, hexponent⟩
    · cases hsign
      exact ⟨false, _, rfl, _, _, hwhole, _, _, hpoint, _, hexponent⟩
  obtain ⟨negative, unsigned, rfl, whole, rest₁, hwhole, point, rest₂, hpoint, _, hexponent⟩ :=
    hparts
  obtain ⟨rfl, hne, hall⟩ := readWhole_eq_some hwhole
  obtain ⟨fraction, hfraction, rfl⟩ := readFraction_eq_some hpoint
  obtain ⟨exponent, hwritten, rfl⟩ := readExponent_eq_some hexponent
  refine ⟨⟨negative, whole, fraction⟩, hne, fun c hc => ?_, exponent, hwritten, ?_⟩
  · exact (List.mem_append.1 hc).elim (hall c) (hfraction c)
  · simp [DecimalText.written]

/-! ## The number of a text -/

/-- Whether a text has an exponent. -/
def HasExponent (t : String) : Prop := ∃ c ∈ t.toList, isMark c = true

theorem isMark_of_isDigit {c : Char} (h : c.isDigit = true) : isMark c = false := by
  have hcode : 48 ≤ c.toNat ∧ c.toNat ≤ 57 := by simpa using Char.isDigit_iff_toNat.1 h
  simp only [isMark, Bool.or_eq_false_iff, decide_eq_false_iff_not]
  exact ⟨by rintro rfl; simp at hcode, by rintro rfl; simp at hcode⟩

theorem IsNumeral.visible (h : IsNumeral t) : ∀ c ∈ t.toList, Text.isBlank c = false := by
  obtain ⟨u, h⟩ := h
  obtain ⟨d, -, hdigital, exponent, hexponent, hparts⟩ := readNumber_eq_some h
  intro c hc
  rw [hparts, List.append_nil] at hc
  rcases List.mem_append.1 hc with hc | hc
  · exact DecimalText.visible_written hdigital c hc
  · rcases hexponent with rfl | ⟨mark, rest, rfl, hmark, hrest⟩
    · cases hc
    · rcases List.mem_cons.1 hc with rfl | hc
      · simp only [isMark, Bool.or_eq_true, decide_eq_true_eq] at hmark
        rcases hmark with rfl | rfl <;> decide
      · exact hrest c hc

/-- A number without exponent is one in decimal notation. -/
theorem IsNumeral.exists_written (h : IsNumeral t) (hplain : ¬HasExponent t) :
    ∃ d : DecimalText, d.whole ≠ [] ∧ d.IsDigital ∧ t.toList = d.written := by
  obtain ⟨u, h⟩ := h
  obtain ⟨d, hne, hdigital, exponent, hexponent, hparts⟩ := readNumber_eq_some h
  rw [List.append_nil] at hparts
  rcases hexponent with rfl | ⟨mark, rest, rfl, hmark, -⟩
  · exact ⟨d, hne, hdigital, by rw [hparts, List.append_nil]⟩
  · exact absurd ⟨mark, by rw [hparts]; simp, hmark⟩ hplain

theorem numberValue?_of_read? (hplain : ¬HasExponent t)
    (hread : DecimalText.read? t.toList = some d) : numberValue? t = some d.value := by
  have hall : ∀ c ∈ t.toList, (!isMark c) = true := fun c hc => by
    simpa using fun hmark => hplain ⟨c, hc, hmark⟩
  rw [numberValue?, List.takeWhile_eq_self_iff.2 hall, List.dropWhile_eq_nil_iff.2 hall, hread]
  rfl

/-- What is written in decimal notation stands for the number of its parts. -/
theorem numberValue?_written (hne : d.whole ≠ []) (h : d.IsDigital) :
    numberValue? (String.ofList d.written) = some d.value := by
  refine numberValue?_of_read? ?_ (by rw [String.toList_ofList, DecimalText.read?_written hne h])
  rintro ⟨c, hc, hmark⟩
  rw [String.toList_ofList] at hc
  rcases DecimalText.mem_written h hc with rfl | rfl | hdigit
  · cases hmark
  · cases hmark
  · rw [isMark_of_isDigit hdigit] at hmark
    cases hmark

end Json

namespace Builtin

open Json

variable {b : Builtin} {cs : List Char} {s t : String} {v w : Json} {d : DecimalText}

/-! ## Integers -/

theorem mem_readSign {c : Char} (hc : c ∈ cs) :
    c = '-' ∨ c = '+' ∨ c ∈ (Integer.readSign cs).2 := by
  unfold Integer.readSign
  split
  · exact (List.mem_cons.1 hc).imp_right .inr
  · exact .inr (List.mem_cons.1 hc)
  · exact .inr (.inr hc)

/-- The integer of a sign and digits. -/
theorem numberValue?_of_isDigits (h : Integer.isDigits (Integer.readSign t.toList).2 = true) :
    numberValue? t = some
      (DecimalText.mk (Integer.readSign t.toList).1 (Integer.readSign t.toList).2 []).value := by
  obtain ⟨hne, hall⟩ := Integer.isDigits_iff.1 h
  refine numberValue?_of_read? ?_ (DecimalText.read?_eq_some_iff.2 ⟨?_, .inl hne, ?_⟩)
  · rintro ⟨c, hc, hmark⟩
    rcases mem_readSign hc with rfl | rfl | hc
    · cases hmark
    · cases hmark
    · rw [isMark_of_isDigit (hall c hc)] at hmark
      cases hmark
  · have hpoint : '.' ∉ (Integer.readSign t.toList).2 := fun hmem => by
      have hdigit := hall '.' hmem
      revert hdigit
      decide
    simp [DecimalText.parts, Text.cut_eq_none hpoint]
  · simpa [DecimalText.IsDigital] using hall

/-- The canonical text of an integer stands for the integer. -/
theorem numberValue?_canonical {negative : Bool} {digits : List Char}
    (h : ∀ c ∈ digits, c.isDigit = true) :
    numberValue? (String.ofList (Integer.canonical negative digits)) =
      some (DecimalText.mk negative digits []).value := by
  have hwritten : Integer.canonical negative digits =
      DecimalText.written ⟨negative && !(Integer.significant digits).isEmpty,
        Integer.leading digits, []⟩ := by
    simp [DecimalText.written, Integer.canonical_eq]
  rw [hwritten, numberValue?_written (Integer.leading_ne_nil _)
    (by simpa [DecimalText.IsDigital] using Integer.isDigit_of_mem_leading h)]
  rw [← DecimalText.value_trimmed ⟨negative, digits, []⟩]
  cases hzero : Integer.significant digits with
  | cons c rest => simp [DecimalText.trimmed]
  | nil =>
      have hleading : Integer.leading digits = ['0'] := by simp [Integer.leading, hzero]
      simp only [DecimalText.trimmed, DecimalText.value, DecimalText.digits, hleading]
      cases negative <;> simp [Nat.ofDigitChars_cons]

theorem IsInteger.same (h : b.IsInteger) (hnumeral : IsNumeral t)
    (hdecode : b.decode t = .ok w) : Same (.number t) w := by
  rw [decode_eq_ok_iff, b.whiteSpace.normalize_of_visible hnumeral.visible, h.read_eq] at hdecode
  obtain ⟨hdigits, -, rfl⟩ := readInteger_eq_ok_iff.1 hdecode
  exact .number (numberValue?_of_isDigits hdigits)
    (numberValue?_canonical (Integer.isDigits_iff.1 hdigits).2)

/-! ## Decimal numbers -/

/-- No digit is rounded away: all digits fit, or the text is kept since its whole part does not. -/
def DecimalText.IsExact (d : DecimalText) : Prop :=
  (d.digits < Nat.pow 2 96 ∧ d.fraction.length ≤ 28) ∨ Decimal.read? d.written = none

/-- A number is kept as a text if its whole part does not fit in 96 bits. -/
theorem DecimalText.isExact_of_whole (hne : d.whole ≠ []) (h : d.IsDigital)
    (hover : Nat.pow 2 96 ≤ Nat.ofDigitChars 10 d.whole 0) : d.IsExact :=
  .inr (Decimal.read?_overflows hne h hover)

/-- The value of a decimal number that is not rounded is the number. -/
theorem numberValue?_of_isExact (h : d.IsDigital) (hexact : d.trimmed.IsExact) :
    numberValue? (((Decimal.read? d.text).map fun x => x.normalize.text).getD
      (String.ofList d.text)) = some d.value := by
  have hne := Integer.leading_ne_nil d.whole
  rw [DecimalText.text_eq, ← DecimalText.value_trimmed d]
  rcases hexact with ⟨hfits, hscale⟩ | hkept
  · rw [Decimal.read?_fits hne h.trimmed hfits hscale]
    simp only [Option.map_some, Option.getD_some]
    rw [Decimal.text_eq, numberValue?_written (Decimal.whole_ne_nil _) (Decimal.isDigital_parts _),
      Decimal.value_parts, Decimal.value_normalize]
    rfl
  · rw [hkept]
    exact numberValue?_written hne h.trimmed

theorem decode_decimal (hnumeral : IsNumeral t) (hplain : ¬HasExponent t) :
    ∃ d w, DecimalText.read? t.toList = some d ∧ decimal.decode t = .ok w ∧
      (d.trimmed.IsExact → Same (.number t) w) := by
  obtain ⟨d, hne, hdigital, hwritten⟩ := hnumeral.exists_written hplain
  have hread : DecimalText.read? t.toList = some d := by
    rw [hwritten, DecimalText.read?_written hne hdigital]
  refine ⟨d, _, hread, ?_, fun hexact => .number (numberValue?_of_read? hplain hread)
    (numberValue?_of_isExact hdigital hexact)⟩
  rw [decode_eq_ok_iff, WhiteSpace.normalize_of_visible _ hnumeral.visible]
  exact readDecimal_eq_ok_iff.2 ⟨d, hread, rfl⟩

/-! ## All types -/

/-- The value with the white space that the type normalizes. -/
def normalized (b : Builtin) : Json → Json
  | .text s => .text (String.ofList (b.whiteSpace.normalize s.toList))
  | v => v

/-- A value whose numbers are in the notation of JSON, those of decimal numbers without exponent. -/
def Takes (b : Builtin) (v : Json) : Prop :=
  ∀ t, v = .number t → IsNumeral t ∧ (b = decimal → ¬HasExponent t)

/-- A value without a decimal number that is rounded. -/
def Keeps (b : Builtin) (v : Json) : Prop :=
  b = decimal → ∀ t d, v = .number t → DecimalText.read? t.toList = some d → d.trimmed.IsExact

theorem IsInteger.encode_cases (hb : b.IsInteger) (h : b.encode v = .ok s) :
    v = .number s ∧ ∃ w, b.decode s = .ok w := by
  cases v with
  | number t =>
      cases hdecode : b.decode t with
      | ok w =>
          obtain rfl := Except.ok.inj ((hb.encode_eq hdecode).symm.trans h)
          exact ⟨rfl, w, hdecode⟩
      | error fault => rcases hb with rfl | rfl | rfl <;> simp [encode, hdecode] at h
  | _ => rcases hb with rfl | rfl | rfl <;> cases h

/-- Texts and numbers are written as they are; names and integers are looked at before. -/
theorem encode_cases (h : b.encode v = .ok s) :
    v = .text s ∧ (b = string ∨ b = token ∨ b = qualifiedName ∧ b.isValid s = true) ∨
      (∃ x, b = boolean ∧ v = .bool x ∧ s = if x then "true" else "false") ∨
      v = .number s ∧ (b = decimal ∨ b.IsInteger ∧ ∃ w, b.decode s = .ok w) := by
  have hinteger (hb : b.IsInteger) :
      v = .number s ∧ (b = decimal ∨ b.IsInteger ∧ ∃ w, b.decode s = .ok w) :=
    ⟨(hb.encode_cases h).1, .inr ⟨hb, (hb.encode_cases h).2⟩⟩
  cases b with
  | string =>
      cases v with
      | text u => exact .inl ⟨congrArg Json.text (Except.ok.inj h), .inl rfl⟩
      | _ => cases h
  | token =>
      cases v with
      | text u => exact .inl ⟨congrArg Json.text (Except.ok.inj h), .inr (.inl rfl)⟩
      | _ => cases h
  | boolean =>
      cases v with
      | bool x => exact .inr (.inl ⟨x, rfl, rfl, (Except.ok.inj h).symm⟩)
      | _ => cases h
  | integer => exact .inr (.inr (hinteger (.inl rfl)))
  | nonNegativeInteger => exact .inr (.inr (hinteger (.inr (.inl rfl))))
  | positiveInteger => exact .inr (.inr (hinteger (.inr (.inr rfl))))
  | decimal =>
      cases v with
      | number t => exact .inr (.inr ⟨congrArg Json.number (Except.ok.inj h), .inl rfl⟩)
      | _ => cases h
  | qualifiedName =>
      cases v with
      | text u =>
          simp only [encode] at h
          split at h
          · rename_i hvalid
            obtain rfl := Except.ok.inj h
            exact .inl ⟨rfl, .inr (.inr ⟨rfl, hvalid⟩)⟩
          · cases h
      | _ => cases h

theorem decode_text (h : b = string ∨ b = token ∨ b = qualifiedName ∧ b.isValid s = true) :
    b.decode s = .ok (b.normalized (.text s)) := by
  rcases h with rfl | rfl | ⟨rfl, hvalid⟩
  · rfl
  · rfl
  · cases hdecode : qualifiedName.decode s with
    | ok w => rw [eq_text_of_readName (decode_eq_ok_iff.1 hdecode)]; rfl
    | error fault => simp [isValid, hdecode, Except.isOk, Except.toBool] at hvalid

/-- What is written of a value is read, as the value with its white space normalized. -/
theorem encode_decode (htakes : b.Takes v) (h : b.encode v = .ok s) :
    ∃ w, b.decode s = .ok w ∧ (b.Keeps v → (b.normalized v).Same w) := by
  rcases encode_cases h with ⟨rfl, htext⟩ | ⟨x, rfl, rfl, rfl⟩ | ⟨rfl, hnumber⟩
  · exact ⟨_, decode_text htext, fun _ => .text _⟩
  · refine ⟨.bool x, ?_, fun _ => .bool x⟩
    cases x <;> decide
  · obtain ⟨hnumeral, hplain⟩ := htakes s rfl
    rcases hnumber with rfl | ⟨hinteger, w, hdecode⟩
    · obtain ⟨d, w, hread, hdecode, hsame⟩ := decode_decimal hnumeral (hplain rfl)
      exact ⟨w, hdecode, fun hkeeps => hsame (hkeeps rfl s d rfl hread)⟩
    · exact ⟨w, hdecode, fun _ => hinteger.same hnumeral hdecode⟩

/-- A number of two places, the second of them zero. -/
theorem encode_decode_sample :
    decimal.Takes (.number "-1.50") ∧ decimal.encode (.number "-1.50") = .ok "-1.50" ∧
      ∃ w, decimal.decode "-1.50" = .ok w ∧ (Json.number "-1.50").Same w := by
  have hplain : ¬HasExponent "-1.50" :=
    fun h => absurd (List.any_eq_true.2 h) (by decide +kernel)
  have htakes : decimal.Takes (.number "-1.50") := by
    rintro t ⟨⟩
    exact ⟨⟨"-1.50", by decide +kernel⟩, fun _ => hplain⟩
  have hkeeps : decimal.Keeps (.number "-1.50") := by
    rintro - t d ⟨⟩ hread
    have hparts : DecimalText.read? "-1.50".toList = some ⟨true, ['1'], ['5', '0']⟩ := by
      decide +kernel
    obtain rfl := Option.some.inj (hparts.symm.trans hread)
    exact .inl (by decide +kernel)
  obtain ⟨w, hdecode, hsame⟩ := encode_decode htakes (s := "-1.50") rfl
  exact ⟨htakes, rfl, w, hdecode, hsame hkeeps⟩

/-- What is written of a value is read as the value itself. -/
def Preserves (b : Builtin) (v : Json) : Prop :=
  ∀ s, b.encode v = .ok s → ∃ w, b.decode s = .ok w ∧ v.Same w

theorem Preserves.same (h : b.Preserves v) (hencode : b.encode v = .ok s)
    (hdecode : b.decode s = .ok w) : v.Same w := by
  obtain ⟨w', hdecode', hsame⟩ := h s hencode
  rw [hdecode] at hdecode'
  cases hdecode'
  exact hsame

/-- White space that is normalized, an exponent, and a number of 29 places. -/
theorem loses_samples :
    ¬token.Preserves (.text "a  b") ∧ ¬qualifiedName.Preserves (.text " a") ∧
      ¬decimal.Preserves (.number "1e+3") ∧
      ¬decimal.Preserves (.number "0.00000000000000000000000000001") := by
  refine ⟨fun h => ?_, fun h => ?_, fun h => ?_, fun h => ?_⟩
  · have hdecode : token.decode "a  b" = .ok (.text "a b") := by decide +kernel
    exact absurd (h.same rfl hdecode).eq_text (by decide)
  · have hencode : qualifiedName.encode (.text " a") = .ok " a" := by decide +kernel
    have hdecode : qualifiedName.decode " a" = .ok (.text "a") := by decide +kernel
    exact absurd (h.same hencode hdecode).eq_text (by decide)
  · obtain ⟨w, hdecode, -⟩ := h "1e+3" rfl
    have hrefused : (decimal.decode "1e+3").isOk = false := by decide +kernel
    rw [hdecode] at hrefused
    cases hrefused
  · have hdecode : decimal.decode "0.00000000000000000000000000001" = .ok (.number "0") := by
      decide +kernel
    exact absurd (h.same rfl hdecode).numberValue?_eq (by decide +kernel)

end Builtin

end Conform
