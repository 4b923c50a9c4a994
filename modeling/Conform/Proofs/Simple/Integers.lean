import Conform.Proofs.Simple.Exactness
/-!
# Integers of any size

A text of a type of integers denotes an integer, whatever its sign, the zeros in front of its digits
and the white space around it. The value that is read is the canonical notation of that integer, so
identity constraints tell two such values apart exactly if the integers differ, be they words,
numbers of 96 bits or larger.
-/

namespace Conform

namespace Integer

variable {cs : List Char} {n : Int}

/-- A text denotes an integer: at least one digit, with an optional sign in front and white space
around. -/
def Denotes (cs : List Char) (n : Int) : Prop :=
  ∃ before sign digits after, cs = before ++ (sign ++ digits ++ after) ∧
    (∀ c ∈ before, Text.isBlank c = true) ∧ (∀ c ∈ after, Text.isBlank c = true) ∧
    digits ≠ [] ∧ (∀ c ∈ digits, c.isDigit = true) ∧
    ((sign = [] ∨ sign = ['+']) ∧ n = Nat.ofDigitChars 10 digits 0 ∨
      sign = ['-'] ∧ n = -(Nat.ofDigitChars 10 digits 0 : Int))

theorem readSign_append (cs : List Char) : ∃ sign, cs = sign ++ (readSign cs).2 ∧
    if (readSign cs).1 then sign = ['-'] else sign = [] ∨ sign = ['+'] := by
  unfold readSign
  split
  · exact ⟨['-'], rfl, rfl⟩
  · exact ⟨['+'], rfl, .inr rfl⟩
  · exact ⟨[], rfl, .inl rfl⟩

/-- A text is read as an integer if it is a sign and digits, and nothing else. -/
theorem read?_eq_some_iff : read? cs = some n ↔ ∃ sign digits, cs = sign ++ digits ∧
    digits ≠ [] ∧ (∀ c ∈ digits, c.isDigit = true) ∧
    ((sign = [] ∨ sign = ['+']) ∧ n = Nat.ofDigitChars 10 digits 0 ∨
      sign = ['-'] ∧ n = -(Nat.ofDigitChars 10 digits 0 : Int)) := by
  constructor
  · intro h
    unfold read? at h
    dsimp only at h
    split at h
    · rename_i hdigits
      obtain ⟨hne, hall⟩ := isDigits_iff.1 hdigits
      obtain ⟨sign, hcs, hsign⟩ := readSign_append cs
      rw [← Option.some.inj h]
      refine ⟨sign, _, hcs, hne, hall, ?_⟩
      split at hsign
      · rename_i hnegative
        exact .inr ⟨hsign, if_pos hnegative⟩
      · rename_i hpositive
        exact .inl ⟨hsign, if_neg hpositive⟩
    · cases h
  · rintro ⟨sign, digits, rfl, hne, hall, hsign⟩
    have hdigits := isDigits_iff.2 ⟨hne, hall⟩
    have hplain : readSign digits = (false, digits) := by
      simpa using readSign_signed false hall [] (.inl rfl)
    unfold read?
    obtain ⟨rfl | rfl, rfl⟩ | ⟨rfl, rfl⟩ := hsign
    · simp [hplain, hdigits]
    · simp [readSign, hdigits]
    · simp [readSign, hdigits]

theorem visible_of_read? (h : read? cs = some n) : ∀ c ∈ cs, Text.isBlank c = false := by
  obtain ⟨sign, digits, rfl, -, hall, hsign⟩ := read?_eq_some_iff.1 h
  intro c hc
  rcases List.mem_append.1 hc with hc | hc
  · obtain ⟨rfl | rfl, -⟩ | ⟨rfl, -⟩ := hsign
    · cases hc
    · rw [List.mem_singleton.1 hc]
      decide
    · rw [List.mem_singleton.1 hc]
      decide
  · exact Text.isBlank_of_isDigit (hall c hc)

theorem isWord_of_read? (h : read? cs = some n) : Text.IsWord cs := by
  refine ⟨?_, visible_of_read? h⟩
  rintro rfl
  cases h

/-- A text denotes an integer if it is read as that integer once its white space is collapsed. -/
theorem denotes_iff : Denotes cs n ↔ read? (WhiteSpace.collapse.normalize cs) = some n := by
  constructor
  · rintro ⟨before, sign, digits, after, rfl, hbefore, hafter, hparts⟩
    have hread : read? (sign ++ digits) = some n := read?_eq_some_iff.2 ⟨_, _, rfl, hparts⟩
    have hwords : Text.words (before ++ (sign ++ digits ++ after)) = [sign ++ digits] :=
      Text.words_eq_singleton_iff.2 ⟨isWord_of_read? hread, before, after, rfl, hbefore, hafter⟩
    rw [(WhiteSpace.collapse_eq_iff (isWord_of_read? hread)).2 hwords, hread]
  · intro h
    have hwords : Text.words cs = [WhiteSpace.collapse.normalize cs] :=
      (WhiteSpace.collapse_eq_iff (isWord_of_read? h)).1 rfl
    obtain ⟨-, before, after, hcs, hbefore, hafter⟩ := Text.words_eq_singleton_iff.1 hwords
    obtain ⟨sign, digits, hparts, hdigits⟩ := read?_eq_some_iff.1 h
    exact ⟨before, sign, digits, after, hparts ▸ hcs, hbefore, hafter, hdigits⟩

theorem denotes_of_read? (h : read? cs = some n) : Denotes cs n := by
  rw [denotes_iff, WhiteSpace.normalize_of_visible _ (visible_of_read? h), h]

/-- Digits of zero are zeros. -/
theorem significant_eq_nil {digits : List Char} (h : ∀ c ∈ digits, c.isDigit = true)
    (hzero : Nat.ofDigitChars 10 digits 0 = 0) : significant digits = [] := by
  by_contra hne
  obtain ⟨c, rest, hfirst⟩ := List.exists_cons_of_ne_nil hne
  have hc : c ≠ '0' := by
    have hhead := List.head_dropWhile_not (p := (· = '0')) (l := digits) hne
    have heq : digits.dropWhile (· = '0') = c :: rest := hfirst
    simpa [heq] using hhead
  have hdigit : c.isDigit = true :=
    h c ((List.dropWhile_sublist _).subset (hfirst ▸ List.mem_cons_self))
  have hpos := pow_le_ofDigitChars hdigit hc rest
  rw [← hfirst, ofDigitChars_significant, hzero] at hpos
  exact absurd hpos (Nat.not_le.2 (Nat.pow_pos (by decide)))

/-- No text denotes two integers. -/
theorem Denotes.unique {m : Int} (h : Denotes cs n) (h' : Denotes cs m) : n = m :=
  Option.some.inj ((denotes_iff.1 h).symm.trans (denotes_iff.1 h'))

end Integer

namespace Builtin

variable {b b' : Builtin} {s s' : String} {v v' : Json}

namespace DecimalText

/-- The canonical notation of the integer with a sign and digits. -/
def ofInteger (negative : Bool) (digits : List Char) : DecimalText :=
  ⟨negative && !(Integer.significant digits).isEmpty, Integer.leading digits, []⟩

variable {negative : Bool} {digits : List Char}

theorem written_ofInteger :
    (ofInteger negative digits).written = Integer.canonical negative digits := by
  simp [written, ofInteger, Integer.canonical_eq]

theorem isDigital_ofInteger (h : ∀ c ∈ digits, c.isDigit = true) :
    (ofInteger negative digits).IsDigital := by
  intro c hc
  exact Integer.isDigit_of_mem_leading h c (by simpa [ofInteger] using hc)

theorem digits_ofInteger :
    (ofInteger negative digits).digits = Nat.ofDigitChars 10 digits 0 := by
  rw [DecimalText.digits, ofInteger, List.append_nil, Integer.ofDigitChars_leading]

theorem isCanonical_ofInteger (h : ∀ c ∈ digits, c.isDigit = true) :
    (ofInteger negative digits).IsCanonical where
  digital := isDigital_ofInteger h
  trimmed := by
    rw [DecimalText.trimmed]
    simp [ofInteger, Integer.leading_leading]
  sign hzero := by
    rw [digits_ofInteger] at hzero
    simp [ofInteger, Integer.significant_eq_nil h hzero]

/-- A canonical notation that is not rounded is kept. -/
theorem IsCanonical.storedAs {u : DecimalText} (h : u.IsCanonical) (hexact : u.IsExact) :
    u.StoredAs u := by
  obtain ⟨u', hu'⟩ := exists_storedAs h.digital (h.trimmed.symm ▸ hexact)
  obtain rfl := h.eq_of_value hu'.canonical hu'.value.symm
  exact hu'

theorem storedAs_ofInteger (negative : Bool) (h : ∀ c ∈ digits, c.isDigit = true) :
    (ofInteger negative digits).StoredAs (ofInteger negative digits) := by
  refine (isCanonical_ofInteger h).storedAs ?_
  by_cases hfits : (ofInteger negative digits).digits < Nat.pow 2 96
  · exact .inl ⟨hfits, Nat.zero_le _⟩
  · refine isExact_of_whole (Integer.leading_ne_nil _) (isDigital_ofInteger h) ?_
    rw [digits_ofInteger] at hfits
    rw [ofInteger, Integer.ofDigitChars_leading]
    exact Nat.le_of_not_lt hfits

theorem value_ofInteger : (ofInteger negative digits).value =
    ((if negative then -(Nat.ofDigitChars 10 digits 0 : Int)
      else Nat.ofDigitChars 10 digits 0 : Int) : ℚ) := by
  rw [DecimalText.value, digits_ofInteger]
  by_cases hzero : Integer.significant digits = []
  · have hnumber : Nat.ofDigitChars 10 digits 0 = 0 := by
      rw [← Integer.ofDigitChars_significant, hzero]
      rfl
    simp [hnumber]
  · cases negative <;> simp [ofInteger, hzero]

end DecimalText

/-- What a type of integers reads is the canonical notation of the integer that the text denotes. -/
theorem IsInteger.decode_eq (hb : b.IsInteger) (h : b.decode s = .ok v) :
    ∃ n u, Integer.Denotes s.toList n ∧ DecimalText.StoredAs u u ∧ u.value = (n : ℚ) ∧
      v = .number u.stored := by
  have hspace : b.whiteSpace = .collapse := by
    rcases hb with rfl | rfl | rfl <;> rfl
  rw [decode_eq_ok_iff, hb.read_eq, hspace] at h
  obtain ⟨hdigits, -, rfl⟩ := readInteger_eq_ok_iff.1 h
  have hall := (Integer.isDigits_iff.1 hdigits).2
  have hstored := DecimalText.storedAs_ofInteger
    (Integer.readSign (WhiteSpace.collapse.normalize s.toList)).1 hall
  refine ⟨_, _, Integer.denotes_iff.2 (if_pos hdigits), hstored, DecimalText.value_ofInteger, ?_⟩
  rw [hstored.stored, DecimalText.written_ofInteger]

/-- Texts that are read as integers denote one each, and their field values are equal exactly if
these are the same integer, whatever their types, signs, zeros in front and size. -/
theorem fieldValue_eq_iff_denotes (hb : b.IsInteger) (hb' : b'.IsInteger)
    (h : b.decode s = .ok v) (h' : b'.decode s' = .ok v') :
    (∃! n, Integer.Denotes s.toList n) ∧ (∃! n, Integer.Denotes s'.toList n) ∧
      (FieldValue.ofJson v = FieldValue.ofJson v' ↔
        ∃ n, Integer.Denotes s.toList n ∧ Integer.Denotes s'.toList n) := by
  obtain ⟨n, u, hn, hu, hvalue, rfl⟩ := hb.decode_eq h
  obtain ⟨n', u', hn', hu', hvalue', rfl⟩ := hb'.decode_eq h'
  refine ⟨⟨n, hn, fun _ h => h.unique hn⟩, ⟨n', hn', fun _ h => h.unique hn'⟩, ?_⟩
  rw [hu.ofJson_eq_iff hu', hvalue, hvalue', Int.cast_inj]
  constructor
  · rintro rfl
    exact ⟨n, hn, hn'⟩
  · rintro ⟨m, hm, hm'⟩
    exact (hn.unique hm).trans (hm'.unique hn')

/-- The least integer beyond 96 bits, with a sign and a zero in front and without. -/
theorem fieldValue_eq_iff_denotes_sample : ∃ v v',
    nonNegativeInteger.decode " +079228162514264337593543950336" = .ok v ∧
      positiveInteger.decode "79228162514264337593543950336\n" = .ok v' ∧
        FieldValue.ofJson v = FieldValue.ofJson v' := by
  have h : nonNegativeInteger.decode " +079228162514264337593543950336" =
      .ok (.number "79228162514264337593543950336") := by decide +kernel
  have h' : positiveInteger.decode "79228162514264337593543950336\n" =
      .ok (.number "79228162514264337593543950336") := by decide +kernel
  obtain ⟨-, -, hiff⟩ := fieldValue_eq_iff_denotes (.inr (.inl rfl)) (.inr (.inr rfl)) h h'
  exact ⟨_, _, h, h', hiff.2 ⟨79228162514264337593543950336,
    Integer.denotes_iff.2 (by decide +kernel), Integer.denotes_iff.2 (by decide +kernel)⟩⟩

end Builtin

end Conform
