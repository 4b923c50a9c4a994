import Conform.Path.Basic
import Conform.Proofs.Markup.Scoping
import Mathlib.Computability.Language
import Mathlib.Data.List.Forall2
/-!
# The grammar of paths

The texts of paths are a regular language. A text of the language can be cut at its signs with no
further look at its characters, and the parts that come out are those that the grammar gives it.
Reading a path is the same as both, and a path that is read is compiled step by step, unless one of
its prefixes is not mapped.
-/

namespace Conform.Path

open scoped Computability

/-! ## The language -/

/-- The texts of one character of a class. -/
def oneOf (p : Char → Bool) : Language Char := {cs | ∃ c, p c = true ∧ cs = [c]}

/-- The language of one text. -/
def exactly (s : String) : Language Char := {s.toList}

def names : Language Char := oneOf isNameStart * (oneOf isNameChar)∗

/-- A name or an asterisk, with an optional prefix. -/
def tests : Language Char := (1 + names * exactly ":") * (names + exactly "*")

/-- A dot or a test, which may name the axis; `last` if it may be that of attributes. -/
def steps (last : Bool) : Language Char :=
  exactly "." + (1 + exactly "child::") * tests +
    if last then (exactly "@" + exactly "attribute::") * tests else 0

/-- Steps that are set off by slashes, with an optional step to all descendants in front. -/
def rows (field : Bool) : Language Char :=
  (1 + exactly ".//") * ((steps false * exactly "/")∗ * steps field)

/-- Rows of steps that are set off by bars. -/
def texts (field : Bool) : Language Char := rows field * (exactly "|" * rows field)∗

/-! ## What a text spells -/

/-- The text of a name test. -/
inductive WrittenTest.Spells : WrittenTest → List Char → Prop
  | any : Spells .any ['*']
  | plain {base : List Char} : isName base = true → Spells (.plain (String.ofList base)) base
  | anyIn {label : List Char} : isName label = true →
    Spells (.anyIn (String.ofList label)) (label ++ [':', '*'])
  | within {label base : List Char} : isName label = true → isName base = true →
    Spells (.within (String.ofList label) (String.ofList base)) (label ++ ':' :: base)

/-- The text of a step; `last` if it may go to attributes. -/
inductive Step.Spells : Bool → Step WrittenTest → List Char → Prop
  | self {last : Bool} : Spells last .self ['.']
  | child {last : Bool} {t : WrittenTest} {cs : List Char} : t.Spells cs →
    Spells last (.child t) cs
  | onChildAxis {last : Bool} {t : WrittenTest} {cs : List Char} : t.Spells cs →
    Spells last (.child t) ("child::".toList ++ cs)
  | onAttributes {t : WrittenTest} {cs : List Char} : t.Spells cs →
    Spells true (.onAttributes t) ('@' :: cs)
  | onAttributeAxis {t : WrittenTest} {cs : List Char} : t.Spells cs →
    Spells true (.onAttributes t) ("attribute::".toList ++ cs)

/-- Things in a row, written with a sign between them, the last one in a way of its own. -/
inductive Separated {α : Type} (sign : Char) (Spells Last : α → List Char → Prop) :
    List α → List Char → Prop
  | last {a : α} {cs : List Char} : Last a cs → Separated sign Spells Last [a] cs
  | cons {a : α} {cs : List Char} {as : List α} {more : List Char} : Spells a cs →
    Separated sign Spells Last as more → Separated sign Spells Last (a :: as) (cs ++ sign :: more)

/-- The text of a branch. -/
inductive BranchSpells (field : Bool) : List (Step WrittenTest) → List Char → Prop
  | here {row : List (Step WrittenTest)} {cs : List Char} :
    Separated '/' (Step.Spells false) (Step.Spells field) row cs → BranchSpells field row cs
  | below {row : List (Step WrittenTest)} {cs : List Char} :
    Separated '/' (Step.Spells false) (Step.Spells field) row cs →
    BranchSpells field (.descendants :: row) (".//".toList ++ cs)

/-- The text of a path. -/
abbrev Spells (field : Bool) : List (List (Step WrittenTest)) → List Char → Prop :=
  Separated '|' (BranchSpells field) (BranchSpells field)

/-! ## Cutting -/

/-- The test in a text, whatever its characters are. -/
def cutTest (cs : List Char) : WrittenTest :=
  if cs = ['*'] then .any
  else match Text.cut ':' cs with
    | none => .plain (String.ofList cs)
    | some (label, base) =>
      if base = ['*'] then .anyIn (String.ofList label)
      else .within (String.ofList label) (String.ofList base)

/-- The step in a text, wherever it stands. -/
def cutStep (cs : List Char) : Step WrittenTest :=
  if cs = ['.'] then .self
  else match attributeTest? cs with
    | some rest => .onAttributes (cutTest rest)
    | none => .child (cutTest (Text.dropStart "child::".toList cs))

def cutBranch (cs : List Char) : List (Step WrittenTest) :=
  match Text.dropStart? ".//".toList cs with
  | some rest => .descendants :: (rest.splitOn '/').map cutStep
  | none => (cs.splitOn '/').map cutStep

def cutText (cs : List Char) : List (List (Step WrittenTest)) := (cs.splitOn '|').map cutBranch

/-! ## Names and tests -/

section

variable {cs label base : List Char} {t : WrittenTest} {c : Char}

theorem mem_exactly {s : String} : cs ∈ exactly s ↔ cs = s.toList := Iff.rfl

theorem mem_star_oneOf {p : Char → Bool} : cs ∈ (oneOf p)∗ ↔ ∀ c ∈ cs, p c = true := by
  rw [Language.mem_kstar]
  constructor
  · rintro ⟨parts, rfl, hparts⟩ c hc
    obtain ⟨part, hpart, hmem⟩ := List.mem_flatten.1 hc
    obtain ⟨d, hd, rfl⟩ := hparts part hpart
    rw [List.mem_singleton.1 hmem]
    exact hd
  · intro h
    refine ⟨cs.map ([·]), ?_, ?_⟩
    · rw [← List.flatMap_def, List.flatMap_singleton']
    · intro part hpart
      obtain ⟨c, hc, rfl⟩ := List.mem_map.1 hpart
      exact ⟨c, h c hc, rfl⟩

theorem mem_names : cs ∈ names ↔ isName cs = true := by
  rw [names, Language.mem_mul]
  constructor
  · rintro ⟨_, ⟨c, hc, rfl⟩, rest, hrest, rfl⟩
    simpa [isName, hc] using mem_star_oneOf.1 hrest
  · intro h
    cases cs with
    | nil => cases h
    | cons c rest =>
        simp only [isName, Bool.and_eq_true, List.all_eq_true] at h
        exact ⟨[c], ⟨c, h.1, rfl⟩, rest, mem_star_oneOf.2 h.2, rfl⟩

theorem mem_tests : cs ∈ tests ↔ ∃ t, WrittenTest.Spells t cs := by
  simp only [tests, Language.mem_mul, Language.mem_add, Language.mem_one, mem_exactly, mem_names]
  constructor
  · rintro ⟨_, rfl | ⟨label, hlabel, _, rfl, rfl⟩, base, hbase | rfl, rfl⟩
    · exact ⟨_, .plain hbase⟩
    · exact ⟨_, .any⟩
    · exact ⟨_, by simpa using .within hlabel hbase⟩
    · exact ⟨_, by simpa using .anyIn hlabel⟩
  · rintro ⟨t, ht⟩
    cases ht with
    | any => exact ⟨[], .inl rfl, _, .inr rfl, rfl⟩
    | plain hbase => exact ⟨[], .inl rfl, _, .inl hbase, rfl⟩
    | anyIn hlabel => exact ⟨_, .inr ⟨_, hlabel, _, rfl, rfl⟩, _, .inr rfl, by simp⟩
    | within hlabel hbase => exact ⟨_, .inr ⟨_, hlabel, _, rfl, rfl⟩, _, .inl hbase, by simp⟩

theorem isNameChar_of_isName (h : isName cs = true) : ∀ c ∈ cs, isNameChar c = true := by
  cases cs with
  | nil => cases h
  | cons c rest =>
      simp only [isName, Bool.and_eq_true, List.all_eq_true] at h
      refine List.forall_mem_cons.2 ⟨?_, h.2⟩
      have hstart := h.1
      simp only [isNameStart, Bool.or_eq_true] at hstart
      simp only [isNameChar, Bool.or_eq_true]
      tauto

/-- The signs of paths that do not stand in names. -/
def signs : List Char := ":*@/|".toList

theorem isNameChar_of_mem_signs (hc : c ∈ signs) : isNameChar c = false := by
  have hsigns : signs.all (fun c => !isNameChar c) = true := by decide +kernel
  simpa using List.all_eq_true.1 hsigns c hc

theorem not_mem_of_isName (hc : c ∈ signs) (h : isName cs = true) : c ∉ cs := by
  intro hmem
  have hname := isNameChar_of_isName h c hmem
  rw [isNameChar_of_mem_signs hc] at hname
  cases hname

theorem colon_not_mem (h : isName cs = true) : ':' ∉ cs := not_mem_of_isName (by decide) h

theorem ne_asterisk_of_isName (h : isName cs = true) : cs ≠ ['*'] := by
  rintro rfl
  exact not_mem_of_isName (by decide) h List.mem_cons_self

/-- The signs of a test are colons and asterisks. -/
theorem WrittenTest.Spells.not_mem (h : t.Spells cs) (hc : c ∈ signs) (hcolon : c ≠ ':')
    (hany : c ≠ '*') : c ∉ cs := by
  intro hmem
  cases h with
  | any => exact hany (List.mem_singleton.1 hmem)
  | plain hbase => exact not_mem_of_isName hc hbase hmem
  | anyIn hlabel =>
      rcases List.mem_append.1 hmem with hmem | hmem
      · exact not_mem_of_isName hc hlabel hmem
      · simp [hcolon, hany] at hmem
  | within hlabel hbase =>
      rcases List.mem_append.1 hmem with hmem | hmem
      · exact not_mem_of_isName hc hlabel hmem
      · rcases List.mem_cons.1 hmem with rfl | hmem
        · exact hcolon rfl
        · exact not_mem_of_isName hc hbase hmem

theorem spells_of_readTest? (h : readTest? cs = some t) : t.Spells cs := by
  unfold readTest? at h
  split at h
  · split at h
    · rename_i hany
      cases h
      rw [hany]
      exact .any
    · split at h
      · rename_i hname
        cases h
        exact .plain hname
      · cases h
  · rename_i label base hcut
    rw [Text.eq_append_of_cut hcut]
    split at h
    · cases h
    · rename_i hlabel
      have hlabel : isName label = true := by simpa using hlabel
      split at h
      · rename_i hany
        cases h
        rw [hany]
        exact .anyIn hlabel
      · split at h
        · rename_i hbase
          cases h
          exact .within hlabel hbase
        · cases h

/-- The text of a test is read as that test, and cut to it. -/
theorem WrittenTest.Spells.read (h : t.Spells cs) : readTest? cs = some t ∧ cutTest cs = t := by
  unfold readTest? cutTest
  cases h with
  | any => exact ⟨rfl, rfl⟩
  | plain hbase =>
      rw [Text.cut_eq_none (colon_not_mem hbase)]
      simp [ne_asterisk_of_isName hbase, hbase]
  | @anyIn label hlabel =>
      rw [Text.cut_append (colon_not_mem hlabel)]
      have hlong : label ++ [':', '*'] ≠ ['*'] := fun h => by simpa using congrArg List.length h
      simp [hlabel, hlong]
  | @within label base hlabel hbase =>
      rw [Text.cut_append (colon_not_mem hlabel)]
      have hcolon : label ++ ':' :: base ≠ ['*'] := fun h => by
        simpa using congrArg (':' ∈ ·) h
      simp [hlabel, hcolon, ne_asterisk_of_isName hbase, hbase]

/-- A test has one colon at most. -/
theorem WrittenTest.Spells.count_colon (h : t.Spells cs) : cs.count ':' ≤ 1 := by
  have hname {cs : List Char} (h : isName cs = true) : cs.count ':' = 0 :=
    List.count_eq_zero.2 (colon_not_mem h)
  cases h with
  | any => decide
  | plain hbase => simp [hname hbase]
  | anyIn hlabel => simp [hname hlabel]
  | within hlabel hbase => simp [hname hlabel, hname hbase]

/-- No test begins with the name of an axis. -/
theorem WrittenTest.Spells.not_axis (h : t.Spells cs) {axis : List Char}
    (haxis : 1 < axis.count ':') : Text.dropStart? axis cs = none := by
  rw [Option.eq_none_iff_forall_ne_some]
  intro rest hrest
  have hcount := h.count_colon
  rw [Text.dropStart?_eq_some_iff.1 hrest, List.count_append] at hcount
  omega

end

/-! ## Steps -/

section

variable {last : Bool} {cs : List Char} {s : Step WrittenTest}

theorem mem_steps : cs ∈ steps last ↔ ∃ s, Step.Spells last s cs := by
  simp only [steps, Language.mem_add, Language.mem_mul, Language.mem_one, mem_exactly, mem_tests]
  constructor
  · rintro ((rfl | ⟨_, rfl | rfl, rest, ⟨t, ht⟩, rfl⟩) | h)
    · exact ⟨_, .self⟩
    · exact ⟨_, .child ht⟩
    · exact ⟨_, .onChildAxis ht⟩
    · cases last with
      | false => exact absurd h (Language.notMem_zero _)
      | true =>
          obtain ⟨_, rfl | rfl, rest, hrest, rfl⟩ := Language.mem_mul.1 h
          · obtain ⟨t, ht⟩ := mem_tests.1 hrest
            exact ⟨_, .onAttributes ht⟩
          · obtain ⟨t, ht⟩ := mem_tests.1 hrest
            exact ⟨_, .onAttributeAxis ht⟩
  · rintro ⟨s, hs⟩
    cases hs with
    | self => exact .inl (.inl rfl)
    | child ht => exact .inl (.inr ⟨[], .inl rfl, _, ⟨_, ht⟩, rfl⟩)
    | onChildAxis ht => exact .inl (.inr ⟨_, .inr rfl, _, ⟨_, ht⟩, rfl⟩)
    | onAttributes ht =>
        exact .inr (Language.mem_mul.2 ⟨_, .inl rfl, _, mem_tests.2 ⟨_, ht⟩, rfl⟩)
    | onAttributeAxis ht =>
        exact .inr (Language.mem_mul.2 ⟨_, .inr rfl, _, mem_tests.2 ⟨_, ht⟩, rfl⟩)

/-- The signs of a step are those of its test, and those of the axes. -/
theorem Step.Spells.not_mem_of_sign {c : Char} (h : s.Spells last cs) (hc : c ∈ signs)
    (hother : c ∉ "child::attribute::.*@".toList) : c ∉ cs := by
  have htest {t : WrittenTest} {cs : List Char} (ht : t.Spells cs) : c ∉ cs := by
    refine ht.not_mem hc ?_ ?_
    · rintro rfl
      exact hother (by decide)
    · rintro rfl
      exact hother (by decide)
  intro hmem
  cases h with
  | self =>
      obtain rfl := List.mem_singleton.1 hmem
      exact hother (by decide)
  | child ht => exact htest ht hmem
  | onChildAxis ht =>
      rcases List.mem_append.1 hmem with hmem | hmem
      · exact hother (List.mem_append_left "attribute::.*@".toList hmem)
      · exact htest ht hmem
  | onAttributes ht =>
      rcases List.mem_cons.1 hmem with rfl | hmem
      · exact hother (by decide)
      · exact htest ht hmem
  | onAttributeAxis ht =>
      rcases List.mem_append.1 hmem with hmem | hmem
      · exact hother (List.mem_append_right "child::".toList (List.mem_append_left _ hmem))
      · exact htest ht hmem

theorem Step.Spells.not_mem (h : s.Spells last cs) : '/' ∉ cs ∧ '|' ∉ cs :=
  ⟨h.not_mem_of_sign (by decide) (by decide), h.not_mem_of_sign (by decide) (by decide)⟩

/-- A test does not look like one of attributes. -/
theorem WrittenTest.Spells.attributeTest?_eq_none {t : WrittenTest} (h : t.Spells cs) :
    attributeTest? cs = none := by
  rw [attributeTest?, Option.or_eq_none_iff]
  refine ⟨?_, h.not_axis (by decide)⟩
  rw [Option.eq_none_iff_forall_ne_some]
  intro rest hrest
  rw [Text.dropStart?_eq_some_iff.1 hrest] at h
  exact h.not_mem (by decide) (by decide) (by decide) List.mem_cons_self

/-- A test is not a dot. -/
theorem WrittenTest.Spells.ne_dot {t : WrittenTest} (h : t.Spells cs) : cs ≠ ['.'] := by
  rintro rfl
  have hnone : readTest? ['.'] = none := by decide +kernel
  rw [h.read.1] at hnone
  cases hnone

theorem spells_of_readStep? (h : readStep? last cs = some s) : s.Spells last cs := by
  unfold readStep? at h
  split at h
  · rename_i hself
    cases h
    rw [hself]
    exact .self
  · split at h
    · rename_i rest hattribute
      obtain ⟨t, ht, rfl⟩ := Option.map_eq_some_iff.1 h
      cases last with
      | false => cases hattribute
      | true =>
          rw [if_pos rfl, attributeTest?, Option.or_eq_some_iff] at hattribute
          rcases hattribute with hsign | ⟨-, haxis⟩
          · rw [Text.dropStart?_eq_some_iff.1 hsign]
            exact .onAttributes (spells_of_readTest? ht)
          · rw [Text.dropStart?_eq_some_iff.1 haxis]
            exact .onAttributeAxis (spells_of_readTest? ht)
    · obtain ⟨t, ht, rfl⟩ := Option.map_eq_some_iff.1 h
      have ht := spells_of_readTest? ht
      unfold Text.dropStart at ht
      cases hstart : Text.dropStart? "child::".toList cs with
      | none =>
          rw [hstart] at ht
          exact .child ht
      | some rest =>
          rw [hstart] at ht
          rw [Text.dropStart?_eq_some_iff.1 hstart]
          exact .onChildAxis ht

/-- The text of a step is read as that step, and cut to it. -/
theorem Step.Spells.read (h : s.Spells last cs) : readStep? last cs = some s ∧ cutStep cs = s := by
  unfold readStep? cutStep
  cases h with
  | self => exact ⟨rfl, rfl⟩
  | child ht =>
      have hstart : Text.dropStart "child::".toList cs = cs := by
        rw [Text.dropStart, ht.not_axis (by decide)]
        rfl
      rw [if_neg ht.ne_dot, if_neg ht.ne_dot, ht.attributeTest?_eq_none, hstart, ite_self]
      simp [ht.read]
  | @onChildAxis _ t cs ht =>
      have hstart : Text.dropStart "child::".toList ("child::".toList ++ cs) = cs := by
        rw [Text.dropStart, Text.dropStart?_eq_some_iff.2 rfl]
        rfl
      have hattribute : attributeTest? ("child::".toList ++ cs) = none := rfl
      rw [hattribute, hstart, ite_self]
      simp [ht.read]
  | @onAttributes t cs ht =>
      have hattribute : attributeTest? ('@' :: cs) = some cs := rfl
      simp [hattribute, ht.read]
  | @onAttributeAxis t cs ht =>
      have hattribute : attributeTest? ("attribute::".toList ++ cs) = some cs := by
        rw [attributeTest?, Text.dropStart?_eq_some_iff.2 (rfl : _ = "attribute::".toList ++ cs)]
        rfl
      rw [hattribute]
      simp [ht.read]

end

/-! ## Rows and unions -/

namespace Separated

variable {α : Type} {sign : Char} {Spells Last : α → List Char → Prop} {as : List α}
  {cs : List Char}

theorem ne_nil (h : Separated sign Spells Last as cs) : as ≠ [] := by
  cases h <;> exact List.cons_ne_nil _ _

theorem forall_mem {P : α → Prop} (h : Separated sign Spells Last as cs)
    (hparts : ∀ a cs, Spells a cs ∨ Last a cs → P a) : ∀ a ∈ as, P a := by
  induction h with
  | last h => exact List.forall_mem_singleton.2 (hparts _ _ (.inr h))
  | cons h _ ih => exact List.forall_mem_cons.2 ⟨hparts _ _ (.inl h), ih⟩

/-- Things in a row are the texts of a language with the sign behind each of them, and the last one
without. -/
theorem mem_iff {s : String} {l m : Language Char} (hsign : s.toList = [sign])
    (hl : ∀ cs, cs ∈ l ↔ ∃ a, Spells a cs) (hm : ∀ cs, cs ∈ m ↔ ∃ a, Last a cs) :
    cs ∈ (l * exactly s)∗ * m ↔ ∃ as, Separated sign Spells Last as cs := by
  constructor
  · intro h
    obtain ⟨_, hstar, last, hlast, rfl⟩ := Language.mem_mul.1 h
    obtain ⟨parts, rfl, hparts⟩ := Language.mem_kstar.1 hstar
    clear h hstar
    induction parts with
    | nil =>
        obtain ⟨a, ha⟩ := (hm last).1 hlast
        exact ⟨[a], .last ha⟩
    | cons part parts ih =>
        obtain ⟨hpart, hparts⟩ := List.forall_mem_cons.1 hparts
        obtain ⟨as, has⟩ := ih hparts
        obtain ⟨first, hfirst, _, rfl, rfl⟩ := Language.mem_mul.1 hpart
        obtain ⟨a, ha⟩ := (hl first).1 hfirst
        exact ⟨a :: as, by simpa [hsign] using Separated.cons ha has⟩
  · rintro ⟨as, h⟩
    induction h with
    | @last a cs h =>
        exact Language.mem_mul.2 ⟨[], Language.nil_mem_kstar _, cs, (hm cs).2 ⟨a, h⟩, rfl⟩
    | @cons a cs as more h _ ih =>
        obtain ⟨front, hfront, last, hlast, rfl⟩ := Language.mem_mul.1 ih
        obtain ⟨parts, rfl, hparts⟩ := Language.mem_kstar.1 hfront
        have hpart : cs ++ [sign] ∈ l * exactly s :=
          Language.append_mem_mul ((hl cs).2 ⟨a, h⟩) hsign.symm
        refine Language.mem_mul.2 ⟨_, Language.join_mem_kstar (L := (cs ++ [sign]) :: parts)
          (List.forall_mem_cons.2 ⟨hpart, hparts⟩), last, hlast, by simp⟩

/-- The signs between the things are the only ones, so the text is cut at them. -/
theorem map_splitOn {f : List Char → α} (h : Separated sign Spells Last as cs)
    (hcut : ∀ a cs, Spells a cs ∨ Last a cs → sign ∉ cs ∧ f cs = a) :
    (cs.splitOn sign).map f = as := by
  induction h with
  | last h =>
      obtain ⟨hsign, rfl⟩ := hcut _ _ (.inr h)
      rw [List.splitOn_eq_singleton hsign]
      rfl
  | cons h _ ih =>
      obtain ⟨hsign, rfl⟩ := hcut _ _ (.inl h)
      rw [List.splitOn_append_cons_self_of_not_mem hsign, List.map_cons, ih]

/-- A character that is not the sign stands in the text only if it stands in one of the things. -/
theorem not_mem {c : Char} (h : Separated sign Spells Last as cs) (hsign : c ≠ sign)
    (hparts : ∀ a cs, Spells a cs ∨ Last a cs → c ∉ cs) : c ∉ cs := by
  induction h with
  | last h => exact hparts _ _ (.inr h)
  | cons h _ ih =>
      rw [List.mem_append, List.mem_cons, not_or, not_or]
      exact ⟨hparts _ _ (.inl h), hsign, ih⟩

/-- Parts that were read are put together again with the sign between them. -/
theorem cons_intercalate {a : α} {part : List Char} {parts : List (List Char)} (h : Spells a part)
    (hne : parts ≠ []) (hparts : Separated sign Spells Last as ([sign].intercalate parts)) :
    Separated sign Spells Last (a :: as) ([sign].intercalate (part :: parts)) := by
  obtain ⟨part', parts, rfl⟩ := List.exists_cons_of_ne_nil hne
  rw [List.intercalate_cons_cons]
  simpa using Separated.cons h hparts

end Separated

section

variable {field : Bool} {cs : List Char} {row branch : List (Step WrittenTest)}
  {branches : List (List (Step WrittenTest))}

theorem mem_rows : cs ∈ rows field ↔ ∃ branch, BranchSpells field branch cs := by
  have hrow (cs : List Char) : cs ∈ (steps false * exactly "/")∗ * steps field ↔
      ∃ row, Separated '/' (Step.Spells false) (Step.Spells field) row cs :=
    Separated.mem_iff rfl (fun _ => mem_steps) (fun _ => mem_steps)
  rw [rows, Language.mem_mul]
  constructor
  · rintro ⟨start, hstart, cs, hcs, rfl⟩
    obtain ⟨row, hcs⟩ := (hrow cs).1 hcs
    rcases (Language.mem_add _ _ _).1 hstart with rfl | rfl
    · exact ⟨row, .here hcs⟩
    · exact ⟨_, .below hcs⟩
  · rintro ⟨branch, h⟩
    cases h with
    | here h => exact ⟨[], .inl rfl, cs, (hrow cs).2 ⟨_, h⟩, rfl⟩
    | below h => exact ⟨_, .inr rfl, _, (hrow _).2 ⟨_, h⟩, rfl⟩

/-- A bar before each row but the first is a bar behind each row but the last. -/
theorem texts_eq : texts field = (rows field * exactly "|")∗ * rows field := by
  rw [texts]
  refine le_antisymm (mul_kstar_le ?_ ?_) (kstar_mul_le ?_ ?_)
  · simpa using mul_le_mul_left (one_le_kstar (a := rows field * exactly "|")) (rows field)
  · rw [← mul_assoc, mul_assoc _ (rows field)]
    exact mul_le_mul_left kstar_mul_le_kstar _
  · simpa using mul_le_mul_right (one_le_kstar (a := exactly "|" * rows field)) (rows field)
  · rw [mul_assoc, ← mul_assoc _ (rows field)]
    exact mul_le_mul_right mul_kstar_le_kstar _

theorem mem_texts : cs ∈ texts field ↔ ∃ branches, Spells field branches cs := by
  rw [texts_eq]
  exact Separated.mem_iff rfl (fun _ => mem_rows) (fun _ => mem_rows)

/-- The text of a row of steps is cut to these steps, and no bar stands in it. -/
theorem cut_row (h : Separated '/' (Step.Spells false) (Step.Spells field) row cs) :
    (cs.splitOn '/').map cutStep = row ∧ '|' ∉ cs := by
  constructor
  · refine h.map_splitOn fun s cs hs => ?_
    rcases hs with hs | hs
    · exact ⟨hs.not_mem.1, hs.read.2⟩
    · exact ⟨hs.not_mem.1, hs.read.2⟩
  · refine h.not_mem (by decide) fun s cs hs => ?_
    rcases hs with hs | hs
    · exact hs.not_mem.2
    · exact hs.not_mem.2

/-- The steps of a row are read one by one. -/
theorem read_row (h : Separated '/' (Step.Spells false) (Step.Spells field) row cs) :
    readSteps? field (cs.splitOn '/') = some row := by
  induction h with
  | last h =>
      rw [List.splitOn_eq_singleton h.not_mem.1, readSteps?, h.read.1]
      rfl
  | @cons _ _ _ more h _ ih =>
      rw [List.splitOn_append_cons_self_of_not_mem h.not_mem.1, readSteps?, h.read.1, ih]
      · rfl
      · exact List.splitOn_ne_nil _ _

theorem row_of_readSteps? : ∀ {parts : List (List Char)} {row : List (Step WrittenTest)},
    readSteps? field parts = some row → parts ≠ [] →
      Separated '/' (Step.Spells false) (Step.Spells field) row (['/'].intercalate parts)
  | [], _, _, h => absurd rfl h
  | [last], row, h, _ => by
    rw [readSteps?] at h
    obtain ⟨s, hs, rfl⟩ := Option.map_eq_some_iff.1 h
    rw [List.intercalate_singleton]
    exact .last (spells_of_readStep? hs)
  | part :: part' :: parts, row, h, _ => by
    simp only [readSteps?, Option.bind_eq_bind, Option.bind_eq_some_iff, Option.pure_def,
      Option.some.injEq] at h
    obtain ⟨s, hs, rest, hrest, rfl⟩ := h
    have hne := List.cons_ne_nil part' parts
    exact .cons_intercalate (spells_of_readStep? hs) hne (row_of_readSteps? hrest hne)

/-- A row of steps does not look like one with a step to all descendants in front. -/
theorem not_below_of_row (h : Separated '/' (Step.Spells false) (Step.Spells field) row cs) :
    Text.dropStart? ".//".toList cs = none := by
  rw [Option.eq_none_iff_forall_ne_some]
  intro rest hrest
  have hread := read_row h
  obtain rfl : cs = '.' :: '/' :: '/' :: rest := Text.dropStart?_eq_some_iff.1 hrest
  -- between the two slashes there is no step
  have hempty (last : Bool) : readStep? last [] = none := by cases last <;> rfl
  obtain ⟨part, parts, hparts⟩ := List.exists_cons_of_ne_nil (List.splitOn_ne_nil '/' rest)
  have hsplit : ('.' :: '/' :: '/' :: rest).splitOn '/' = ['.'] :: [] :: part :: parts := by
    rw [← hparts]
    simp [List.splitOn_cons_eq_if_modifyHead]
  rw [hsplit] at hread
  simp [readSteps?, hempty] at hread

theorem BranchSpells.read (h : BranchSpells field branch cs) :
    readBranch? field cs = some branch ∧ cutBranch cs = branch := by
  unfold readBranch? cutBranch
  cases h with
  | here h =>
      rw [not_below_of_row h]
      exact ⟨read_row h, (cut_row h).1⟩
  | below h =>
      rw [Text.dropStart?_eq_some_iff.2 rfl]
      simp [read_row h, (cut_row h).1]

theorem BranchSpells.not_mem (h : BranchSpells field branch cs) : '|' ∉ cs := by
  cases h with
  | here h => exact (cut_row h).2
  | below h => simpa using (cut_row h).2

theorem branch_of_readBranch? (h : readBranch? field cs = some branch) :
    BranchSpells field branch cs := by
  have hrow {cs : List Char} {row : List (Step WrittenTest)}
      (h : readSteps? field (cs.splitOn '/') = some row) :
      Separated '/' (Step.Spells false) (Step.Spells field) row cs := by
    simpa using row_of_readSteps? h (List.splitOn_ne_nil _ _)
  unfold readBranch? at h
  split at h
  · rename_i rest hstart
    obtain ⟨row, hread, rfl⟩ := Option.map_eq_some_iff.1 h
    rw [Text.dropStart?_eq_some_iff.1 hstart]
    exact .below (hrow hread)
  · exact .here (hrow h)

theorem spells_of_mapM : ∀ {parts : List (List Char)} {branches : List (List (Step WrittenTest))},
    parts.mapM (readBranch? field) = some branches → parts ≠ [] →
      Spells field branches (['|'].intercalate parts)
  | [], _, _, h => absurd rfl h
  | [part], branches, h, _ => by
    simp only [List.mapM_cons, List.mapM_nil, Option.bind_eq_bind, Option.bind_eq_some_iff,
      Option.pure_def, Option.some.injEq] at h
    obtain ⟨branch, hbranch, _, rfl, rfl⟩ := h
    rw [List.intercalate_singleton]
    exact .last (branch_of_readBranch? hbranch)
  | part :: part' :: parts, branches, h, _ => by
    rw [List.mapM_cons] at h
    simp only [Option.bind_eq_bind, Option.bind_eq_some_iff, Option.pure_def,
      Option.some.injEq] at h
    obtain ⟨branch, hbranch, rest, hrest, rfl⟩ := h
    have hne := List.cons_ne_nil part' parts
    exact .cons_intercalate (branch_of_readBranch? hbranch) hne (spells_of_mapM hrest hne)

/-- A path is read as what its text spells. -/
theorem readBranches?_eq_some_iff :
    readBranches? field cs = some branches ↔ Spells field branches cs := by
  constructor
  · intro h
    simpa using spells_of_mapM h (List.splitOn_ne_nil _ _)
  · intro h
    unfold readBranches?
    induction h with
    | last h =>
        rw [List.splitOn_eq_singleton h.not_mem]
        simp [h.read.1]
    | cons h _ ih =>
        rw [List.splitOn_append_cons_self_of_not_mem h.not_mem, List.mapM_cons, h.read.1, ih]
        rfl

/-- The names of the axes are names like others. -/
example : readBranches? true ".//child:child/attribute::attribute:*".toList =
    some [[.descendants, .child (.within "child" "child"),
      .onAttributes (.anyIn "attribute")]] := by
  decide +kernel

theorem cutText_of_spells (h : Spells field branches cs) : cutText cs = branches :=
  h.map_splitOn fun _ _ hs => hs.elim (fun hs => ⟨hs.not_mem, hs.read.2⟩)
    fun hs => ⟨hs.not_mem, hs.read.2⟩

end

end Conform.Path
