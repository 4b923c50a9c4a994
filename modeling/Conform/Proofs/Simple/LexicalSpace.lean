import Conform.Proofs.Path.Grammar
import Conform.Proofs.Simple.Integers
import Mathlib.Data.List.DropRight
/-!
# Lexical spaces

The texts of booleans and numbers are regular languages, and a text is read by its type exactly if
it belongs to the language of the type once the white space at its ends is gone. White space is what
has the property White_Space. That is more than the four characters of markup, so a text with
another one at its ends is read although it does not belong to the language.
-/

namespace Conform

open scoped Computability

/-! ## White space around a word -/

namespace Text

variable {p : Char → Bool} {cs w before after : List Char}

/-- The text without the characters of a class at its ends. -/
def stripped (p : Char → Bool) (cs : List Char) : List Char := (cs.dropWhile p).rdropWhile p

theorem exists_stripped (p : Char → Bool) (cs : List Char) : ∃ before after,
    cs = before ++ (stripped p cs ++ after) ∧ (∀ c ∈ before, p c = true) ∧
      ∀ c ∈ after, p c = true := by
  refine ⟨cs.takeWhile p, (cs.dropWhile p).rtakeWhile p, ?_, fun _ => List.mem_takeWhile_imp,
    fun _ => List.mem_rtakeWhile_imp⟩
  rw [stripped, List.rdropWhile_append_rtakeWhile, List.takeWhile_append_dropWhile]

/-- What has none of the characters is found again between them. -/
theorem stripped_append (hne : w ≠ []) (hw : ∀ c ∈ w, p c = false)
    (hbefore : ∀ c ∈ before, p c = true) (hafter : ∀ c ∈ after, p c = true) :
    stripped p (before ++ (w ++ after)) = w := by
  have hfront : (w ++ after).dropWhile p = w ++ after := by
    obtain ⟨c, rest, rfl⟩ := List.exists_cons_of_ne_nil hne
    rw [List.cons_append, List.dropWhile_cons_of_neg (by simp [hw c List.mem_cons_self])]
  have hback : w.rdropWhile p = w := by
    refine List.rdropWhile_eq_self_iff.2 fun h => ?_
    simp [hw _ (List.getLast_mem h)]
  have hreverse : ∀ c ∈ after.reverse, p c = true := fun c hc => hafter c (List.mem_reverse.1 hc)
  rw [stripped, List.dropWhile_append_of_pos hbefore, hfront, List.rdropWhile, List.reverse_append,
    List.dropWhile_append_of_pos hreverse]
  exact hback

/-- A word is what is left of a text with characters of the class around it. -/
theorem stripped_eq_iff (hne : w ≠ []) (hw : ∀ c ∈ w, p c = false) :
    stripped p cs = w ↔ ∃ before after, cs = before ++ (w ++ after) ∧
      (∀ c ∈ before, p c = true) ∧ ∀ c ∈ after, p c = true := by
  constructor
  · rintro rfl
    exact exists_stripped p cs
  · rintro ⟨before, after, rfl, hbefore, hafter⟩
    exact stripped_append hne hw hbefore hafter

end Text

/-- White space is collapsed to a word where it stands around that word. -/
theorem WhiteSpace.collapse_eq_iff_stripped {cs w : List Char} (hw : Text.IsWord w) :
    collapse.normalize cs = w ↔ Text.stripped Text.isBlank cs = w := by
  rw [collapse_eq_iff hw, Text.words_eq_singleton_iff, and_iff_right hw,
    Text.stripped_eq_iff hw.ne_nil hw.visible]

/-! ## The languages -/

namespace Builtin

open Conform.Path (oneOf exactly mem_exactly mem_star_oneOf)

variable {b : Builtin} {cs : List Char} {least n : Int} {L : Language Char}

/-- One or more digits. -/
def digits : Language Char := oneOf Char.isDigit * (oneOf Char.isDigit)∗

def sign : Language Char := 1 + exactly "+" + exactly "-"

def booleans : Language Char := exactly "true" + exactly "false" + exactly "1" + exactly "0"

def integers : Language Char := sign * digits

/-- The texts of the integers from the least on. -/
def integersFrom (least : Int) : Language Char :=
  {cs | cs ∈ integers ∧ ∃ n, Integer.Denotes cs n ∧ least ≤ n}

/-- Digits with an optional point behind or among them, or a point and digits. -/
def unsignedDecimals : Language Char :=
  digits * (1 + exactly "." * (oneOf Char.isDigit)∗) + exactly "." * digits

def decimals : Language Char := sign * unsignedDecimals

/-- The language of a type of booleans or numbers. -/
inductive HasLexicalSpace : Builtin → Language Char → Prop
  | boolean : HasLexicalSpace .boolean booleans
  | integer : HasLexicalSpace .integer integers
  | nonNegativeInteger : HasLexicalSpace .nonNegativeInteger (integersFrom 0)
  | positiveInteger : HasLexicalSpace .positiveInteger (integersFrom 1)
  | decimal : HasLexicalSpace .decimal decimals

theorem mem_digits : cs ∈ digits ↔ cs ≠ [] ∧ ∀ c ∈ cs, c.isDigit = true := by
  rw [digits, Language.mem_mul]
  constructor
  · rintro ⟨_, ⟨c, hc, rfl⟩, rest, hrest, rfl⟩
    exact ⟨by simp, List.forall_mem_cons.2 ⟨hc, mem_star_oneOf.1 hrest⟩⟩
  · rintro ⟨hne, hall⟩
    obtain ⟨c, rest, rfl⟩ := List.exists_cons_of_ne_nil hne
    obtain ⟨hc, hrest⟩ := List.forall_mem_cons.1 hall
    exact ⟨[c], ⟨c, hc, rfl⟩, rest, mem_star_oneOf.2 hrest, rfl⟩

theorem mem_sign : cs ∈ sign ↔ (cs = [] ∨ cs = ['+']) ∨ cs = ['-'] := by
  simp only [sign, Language.mem_add, Language.mem_one, mem_exactly]
  rfl

/-- The texts of integers are those that are read as integers. -/
theorem mem_integers : cs ∈ integers ↔ ∃ n, Integer.read? cs = some n := by
  simp only [integers, Language.mem_mul, mem_sign, mem_digits, Integer.read?_eq_some_iff]
  constructor
  · rintro ⟨sign, hsign | hsign, digits, ⟨hne, hall⟩, rfl⟩
    · exact ⟨_, sign, digits, rfl, hne, hall, .inl ⟨hsign, rfl⟩⟩
    · exact ⟨_, sign, digits, rfl, hne, hall, .inr ⟨hsign, rfl⟩⟩
  · rintro ⟨n, sign, digits, rfl, hne, hall, ⟨hsign, -⟩ | ⟨hsign, -⟩⟩
    · exact ⟨sign, .inl hsign, digits, ⟨hne, hall⟩, rfl⟩
    · exact ⟨sign, .inr hsign, digits, ⟨hne, hall⟩, rfl⟩

theorem mem_integersFrom :
    cs ∈ integersFrom least ↔ ∃ n, Integer.read? cs = some n ∧ least ≤ n := by
  constructor
  · rintro ⟨hcs, n, hn, hle⟩
    obtain ⟨m, hm⟩ := mem_integers.1 hcs
    exact ⟨m, hm, (Integer.denotes_of_read? hm).unique hn ▸ hle⟩
  · rintro ⟨n, hn, hle⟩
    exact ⟨mem_integers.2 ⟨n, hn⟩, n, Integer.denotes_of_read? hn, hle⟩

theorem mem_unsignedDecimals : cs ∈ unsignedDecimals ↔ ∃ whole fraction point,
    cs = whole ++ point ∧ (∀ c ∈ whole ++ fraction, c.isDigit = true) ∧
      (whole ≠ [] ∨ fraction ≠ []) ∧ (point = '.' :: fraction ∨ point = [] ∧ fraction = []) := by
  simp only [unsignedDecimals, Language.mem_mul, Language.mem_add, Language.mem_one, mem_digits,
    mem_exactly, mem_star_oneOf, List.forall_mem_append]
  constructor
  · rintro (⟨whole, ⟨hne, hwhole⟩, _, rfl | ⟨_, rfl, fraction, hfraction, rfl⟩, rfl⟩ |
      ⟨_, rfl, fraction, ⟨hne, hfraction⟩, rfl⟩)
    · exact ⟨whole, [], [], rfl, ⟨hwhole, nofun⟩, .inl hne, .inr ⟨rfl, rfl⟩⟩
    · exact ⟨whole, fraction, _, rfl, ⟨hwhole, hfraction⟩, .inl hne, .inl rfl⟩
    · exact ⟨[], fraction, _, rfl, ⟨nofun, hfraction⟩, .inr hne, .inl rfl⟩
  · rintro ⟨whole, fraction, point, rfl, ⟨hwhole, hfraction⟩, hne, hpoint⟩
    by_cases hempty : whole = []
    · subst hempty
      have hdigits : fraction ≠ [] := hne.resolve_left (not_not_intro rfl)
      obtain rfl := hpoint.resolve_right fun h => hdigits h.2
      exact .inr ⟨['.'], rfl, fraction, ⟨hdigits, hfraction⟩, rfl⟩
    · refine .inl ⟨whole, ⟨hempty, hwhole⟩, point, ?_, rfl⟩
      rcases hpoint with rfl | ⟨rfl, -⟩
      · exact .inr ⟨['.'], rfl, fraction, hfraction, rfl⟩
      · exact .inl rfl

/-- The texts of decimal numbers are those that spell one. -/
theorem mem_decimals : cs ∈ decimals ↔ ∃ d : DecimalText, d.Spells cs := by
  simp only [decimals, Language.mem_mul, mem_sign, mem_unsignedDecimals]
  constructor
  · rintro ⟨sign, hsign, _, ⟨whole, fraction, point, rfl, hdigits, hne, hpoint⟩, rfl⟩
    rcases hsign with hsign | hsign
    · exact ⟨⟨false, whole, fraction⟩, hdigits, hne, sign, point, rfl, hsign, hpoint⟩
    · exact ⟨⟨true, whole, fraction⟩, hdigits, hne, sign, point, rfl, hsign, hpoint⟩
  · rintro ⟨⟨negative, whole, fraction⟩, hdigits, hne, sign, point, rfl, hsign, hpoint⟩
    refine ⟨sign, ?_, _, ⟨whole, fraction, point, rfl, hdigits, hne, hpoint⟩, rfl⟩
    cases negative with
    | false => exact .inl hsign
    | true => exact .inr hsign

/-! ## What is read -/

theorem readBoolean_ok_iff : (∃ v, readBoolean cs = .ok v) ↔ cs ∈ booleans := by
  have hof : ∀ t : String, String.ofList cs = t ↔ cs = t.toList := fun t => by
    rw [← String.toList_inj, String.toList_ofList]
  simp only [booleans, Language.mem_add, mem_exactly, readBoolean, hof]
  split
  · rename_i h
    exact iff_of_true ⟨_, rfl⟩ (by tauto)
  · split
    · rename_i h
      exact iff_of_true ⟨_, rfl⟩ (by tauto)
    · exact iff_of_false nofun (by tauto)

/-- What a type of integers demands of the number. -/
def Admits : Builtin → Int → Prop
  | nonNegativeInteger, n => 0 ≤ n
  | positiveInteger, n => 1 ≤ n
  | _, _ => True

/-- The number is zero exactly if its digits are. -/
theorem isEmpty_significant {ds : List Char} (h : ∀ c ∈ ds, c.isDigit = true) :
    (Integer.significant ds).isEmpty = true ↔ Nat.ofDigitChars 10 ds 0 = 0 := by
  rw [List.isEmpty_iff]
  constructor
  · intro hnil
    rw [← Integer.ofDigitChars_significant, hnil]
    rfl
  · exact Integer.significant_eq_nil h

/-- The sign and whether the digits are zero decide of the bound. -/
theorem checkSign_eq_ok_iff (negative : Bool) {ds : List Char} (h : ∀ c ∈ ds, c.isDigit = true) :
    b.checkSign negative (Integer.significant ds).isEmpty = .ok () ↔
      b.Admits (if negative then -(Nat.ofDigitChars 10 ds 0 : Int)
        else Nat.ofDigitChars 10 ds 0) := by
  have hzero := isEmpty_significant h
  generalize (Integer.significant ds).isEmpty = isZero at hzero ⊢
  generalize Nat.ofDigitChars 10 ds 0 = k at hzero ⊢
  cases b <;> cases negative <;> cases isZero <;> simp [checkSign, Admits] at hzero ⊢ <;> omega

theorem readInteger_ok_iff :
    (∃ v, b.readInteger cs = .ok v) ↔ ∃ n, Integer.read? cs = some n ∧ b.Admits n := by
  simp only [readInteger_eq_ok_iff, Integer.read?]
  by_cases hdigits : Integer.isDigits (Integer.readSign cs).2 = true
  · simp [hdigits, checkSign_eq_ok_iff _ (Integer.isDigits_iff.1 hdigits).2]
  · simp [hdigits]

/-- The text of a decimal number that is read spells that number. -/
theorem spells_of_read? {d : DecimalText} (h : DecimalText.read? cs = some d) : d.Spells cs := by
  obtain ⟨rfl, hne, hdigits⟩ := DecimalText.read?_eq_some_iff.1 h
  obtain ⟨sign, hcs, hsign⟩ := Integer.readSign_append cs
  cases hcut : Text.cut '.' (Integer.readSign cs).2 with
  | none =>
      have hparts : DecimalText.parts cs =
          ⟨(Integer.readSign cs).1, (Integer.readSign cs).2, []⟩ := by
        simp [DecimalText.parts, hcut]
      refine ⟨hdigits, hne, sign, [], ?_, hsign, .inr ⟨rfl, ?_⟩⟩
      · rw [hparts, List.append_nil]
        exact hcs
      · rw [hparts]
  | some halves =>
      have hparts : DecimalText.parts cs =
          ⟨(Integer.readSign cs).1, halves.1, halves.2⟩ := by
        simp [DecimalText.parts, hcut]
      refine ⟨hdigits, hne, sign, '.' :: halves.2, ?_, hsign, .inl ?_⟩
      · rw [hparts, ← Text.eq_append_of_cut hcut]
        exact hcs
      · rw [hparts]

theorem readDecimal_ok_iff : (∃ v, readDecimal cs = .ok v) ↔ cs ∈ decimals := by
  simp only [readDecimal_eq_ok_iff, mem_decimals]
  constructor
  · rintro ⟨_, d, hd, -⟩
    exact ⟨d, spells_of_read? hd⟩
  · rintro ⟨d, hd⟩
    exact ⟨_, d, hd.read?, rfl⟩

namespace HasLexicalSpace

theorem read_ok_iff (h : b.HasLexicalSpace L) : (∃ v, b.read cs = .ok v) ↔ cs ∈ L := by
  cases h with
  | boolean => exact readBoolean_ok_iff
  | integer =>
      rw [mem_integers]
      exact readInteger_ok_iff.trans (by simp [Admits])
  | nonNegativeInteger =>
      rw [mem_integersFrom]
      exact readInteger_ok_iff
  | positiveInteger =>
      rw [mem_integersFrom]
      exact readInteger_ok_iff
  | decimal => exact readDecimal_ok_iff

/-- A text of the language is a word. -/
theorem isWord (h : b.HasLexicalSpace L) {w : List Char} (hw : w ∈ L) : Text.IsWord w := by
  cases h with
  | boolean =>
    simp only [booleans, Language.mem_add, mem_exactly] at hw
    obtain ((rfl | rfl) | rfl) | rfl := hw <;> decide
  | integer =>
      obtain ⟨n, hn⟩ := mem_integers.1 hw
      exact Integer.isWord_of_read? hn
  | nonNegativeInteger | positiveInteger =>
      obtain ⟨n, hn, -⟩ := mem_integersFrom.1 hw
      exact Integer.isWord_of_read? hn
  | decimal =>
      obtain ⟨d, hd⟩ := mem_decimals.1 hw
      refine ⟨?_, hd.visible⟩
      rintro rfl
      cases hd.read?

theorem whiteSpace_eq (h : b.HasLexicalSpace L) : b.whiteSpace = .collapse := by
  cases h <;> rfl

/-- A text is read exactly if it belongs to the language without the white space at its ends. -/
theorem decode_ok_iff (h : b.HasLexicalSpace L) (s : String) :
    (∃ v, b.decode s = .ok v) ↔ Text.stripped Text.isBlank s.toList ∈ L := by
  have hdecode : (∃ v, b.decode s = .ok v) ↔ WhiteSpace.collapse.normalize s.toList ∈ L := by
    rw [← h.read_ok_iff, ← h.whiteSpace_eq]
    exact exists_congr fun _ => decode_eq_ok_iff
  rw [hdecode]
  constructor
  · intro hmem
    exact (WhiteSpace.collapse_eq_iff_stripped (h.isWord hmem)).1 rfl ▸ hmem
  · intro hmem
    exact (WhiteSpace.collapse_eq_iff_stripped (h.isWord hmem)).2 rfl ▸ hmem

/-- A text of the language with white space of markup around it is one that has no other white
space. -/
theorem stripped_markup_iff (h : b.HasLexicalSpace L) :
    Text.stripped Text.isMarkupBlank cs ∈ L ↔ Text.stripped Text.isBlank cs ∈ L ∧
      ∀ c ∈ cs, Text.isBlank c = true → Text.isMarkupBlank c = true := by
  constructor
  · intro hmem
    have hword := h.isWord hmem
    obtain ⟨before, after, hcs, hbefore, hafter⟩ := Text.exists_stripped Text.isMarkupBlank cs
    have hsame : Text.stripped Text.isBlank cs = Text.stripped Text.isMarkupBlank cs :=
      (Text.stripped_eq_iff hword.ne_nil hword.visible).2 ⟨before, after, hcs,
        fun c hc => Text.isBlank_of_isMarkupBlank (hbefore c hc),
        fun c hc => Text.isBlank_of_isMarkupBlank (hafter c hc)⟩
    refine ⟨hsame.symm ▸ hmem, fun c hc hblank => ?_⟩
    rw [hcs, List.mem_append, List.mem_append] at hc
    rcases hc with hc | hc | hc
    · exact hbefore c hc
    · rw [hword.visible c hc] at hblank
      cases hblank
    · exact hafter c hc
  · rintro ⟨hmem, hall⟩
    have hword := h.isWord hmem
    obtain ⟨before, after, hcs, hbefore, hafter⟩ := Text.exists_stripped Text.isBlank cs
    have hvisible : ∀ c ∈ Text.stripped Text.isBlank cs, Text.isMarkupBlank c = false := by
      intro c hc
      by_contra hmarkup
      have hblank := Text.isBlank_of_isMarkupBlank (Bool.not_eq_false _ ▸ hmarkup)
      rw [hword.visible c hc] at hblank
      cases hblank
    have hsame : Text.stripped Text.isMarkupBlank cs = Text.stripped Text.isBlank cs := by
      refine (Text.stripped_eq_iff hword.ne_nil hvisible).2 ⟨before, after, hcs, ?_, ?_⟩
      · exact fun c hc => hall c (hcs ▸ List.mem_append_left _ hc) (hbefore c hc)
      · exact fun c hc => hall c
          (hcs ▸ List.mem_append_right _ (List.mem_append_right _ hc)) (hafter c hc)
    exact hsame ▸ hmem

end HasLexicalSpace

/-- A text of a type of booleans or numbers is read exactly if it belongs to the language of the
type without the characters with the property White_Space at its ends. It does so without white
space of markup at its ends exactly if it is read and has no other white space. -/
theorem decode_accepts (h : b.HasLexicalSpace L) (s : String) :
    ((∃ v, b.decode s = .ok v) ↔ Text.stripped Text.isBlank s.toList ∈ L) ∧
      (Text.stripped Text.isMarkupBlank s.toList ∈ L ↔ (∃ v, b.decode s = .ok v) ∧
        ∀ c ∈ s.toList, Text.isBlank c = true → Text.isMarkupBlank c = true) := by
  rw [h.stripped_markup_iff, h.decode_ok_iff]
  exact ⟨Iff.rfl, Iff.rfl⟩

/-- A positive integer with a sign, a zero in front and white space of markup around it. -/
theorem decode_accepts_sample :
    Text.stripped Text.isMarkupBlank "\t+042\n ".toList ∈ integersFrom 1 ∧
      ∃ v, positiveInteger.decode "\t+042\n " = .ok v := by
  have hmem : Text.stripped Text.isMarkupBlank "\t+042\n ".toList ∈ integersFrom 1 :=
    mem_integersFrom.2 ⟨42, by decide +kernel, by decide⟩
  exact ⟨hmem, ((decode_accepts .positiveInteger _).2.1 hmem).1⟩

/-- A number behind a no-break space is read, which is no white space of markup. -/
theorem decode_accepts_spaces : ¬∀ {b : Builtin} {L : Language Char}, b.HasLexicalSpace L →
    ∀ s : String, (∃ v, b.decode s = .ok v) ↔ Text.stripped Text.isMarkupBlank s.toList ∈ L := by
  intro hall
  have hread : integer.decode "\u00a01" = .ok (.number "1") := by decide +kernel
  obtain ⟨n, hn⟩ := mem_integers.1 ((hall .integer "\u00a01").1 ⟨_, hread⟩)
  have hnone : Integer.read? (Text.stripped Text.isMarkupBlank "\u00a01".toList) = none := by
    decide +kernel
  rw [hnone] at hn
  cases hn

end Builtin

end Conform
