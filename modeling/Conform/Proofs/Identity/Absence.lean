import Conform.Proofs.Identity.Duplicates
import Conform.Proofs.Identity.Places
/-!
# Elements without a value

An element in which no field of a constraint has a value has no tuple, unless it is nil. A tuple
without a value is thus that of a nil element, and so are the problems with it: it is repeated only
where two nil elements are selected, and dangles only where one is.
-/

namespace Conform

namespace FieldValue

theorem ofDecimal_ne_absent (d : Decimal) : ofDecimal d ≠ .absent := by
  unfold ofDecimal
  split
  · split <;> nofun
  · nofun

theorem ofNumber_ne_absent (t : String) : ofNumber t ≠ .absent := by
  unfold ofNumber
  dsimp only
  split
  · nofun
  · split
    · exact ofDecimal_ne_absent _
    · nofun

theorem ofJson_eq_absent_iff {v : Json} : ofJson v = .absent ↔ v = .null := by
  cases v with
  | null => simp [ofJson]
  | number t => simp [ofJson, ofNumber_ne_absent t]
  | bool _ => simp [ofJson]
  | text _ => simp [ofJson]
  | list _ => simp [ofJson]
  | object _ => simp [ofJson]

end FieldValue

/-- The field reaches a node with a value. -/
def Path.hasValue (field : Path) (e : Decoded) : Bool :=
  (field.select e).any fun n => n.typedValue.any fun v => v ≠ .null

theorem Path.isAbsent_fieldValue {field : Path} {e : Decoded} {v : FieldValue}
    (h : field.fieldValue e = .ok v) : v.isAbsent = !field.hasValue e := by
  unfold fieldValue at h
  unfold hasValue
  split at h
  · rename_i hselect
    cases h
    rw [hselect]
    rfl
  · rename_i n hselect
    cases h
    rw [hselect]
    cases hn : n.typedValue with
    | none => simp [hn, FieldValue.isAbsent]
    | some v => simp [hn, FieldValue.isAbsent, FieldValue.ofJson_eq_absent_iff]
  · cases h

namespace Rule

variable {r : Rule} {policy : AbsentKeyPolicy} {scope e : Decoded} {t : FieldTuple}

/-- No field of the constraint has a value in the element. -/
def selectsNothing (r : Rule) (e : Decoded) : Bool := r.fields.all fun field => !field.hasValue e

theorem isAllAbsent_of_fields {fields : List Path}
    (h : (fields.mapM fun field => field.fieldValue e) = .ok t) :
    FieldTuple.isAllAbsent t = fields.all fun field => !field.hasValue e := by
  induction fields generalizing t with
  | nil =>
      cases h
      rfl
  | cons field fields ih =>
      rw [List.mapM_cons] at h
      simp only [bind, Except.bind, pure, Except.pure] at h
      split at h
      · cases h
      · rename_i v hv
        split at h
        · cases h
        · rename_i rest hrest
          cases h
          rw [List.all_cons, ← Path.isAbsent_fieldValue hv, ← ih hrest]
          rfl

/-- The tuples without a value are those of the elements that select nothing. -/
theorem isAllAbsent_of_examine {t : LocatedTuple} (h : (r.examine policy e).tuple? = some t) :
    FieldTuple.isAllAbsent t.1 = r.selectsNothing e :=
  isAllAbsent_of_fields (examine_tuple h).1

/-- An element that selects nothing has no tuple, unless it is nil. -/
theorem isNil_of_selectsNothing {t : LocatedTuple} (h : (r.examine policy e).tuple? = some t)
    (hnothing : r.selectsNothing e = true) : e.isNil = true :=
  (examine_tuple h).2.2.1 ((isAllAbsent_of_examine h).trans hnothing)

/-- In a unique or a keyref every other element has its tuple. -/
theorem examine_of_fields (hkey : r.declared.isKey = false)
    (h : (r.fields.mapM fun field => field.fieldValue e) = .ok t) :
    (r.examine policy e).tuple? =
      if r.selectsNothing e && !e.isNil then none else some (t, e.path) := by
  have hmissing : r.missing? policy t = none := by
    unfold missing?
    rw [hkey]
    rfl
  have habsent : FieldTuple.isAllAbsent t = r.selectsNothing e := isAllAbsent_of_fields h
  unfold examine
  rw [h]
  dsimp only
  rw [hmissing, habsent]
  dsimp only
  split <;> rfl

theorem element_of_isAllAbsent {t : LocatedTuple} (h : t ∈ r.tuples policy scope)
    (ht : FieldTuple.isAllAbsent t.1 = true) :
    ∃ e ∈ r.elements scope, e.isNil = true ∧ r.selectsNothing e = true ∧ t.2 = e.path := by
  rw [tuples_eq] at h
  obtain ⟨e, he, hexamine⟩ := List.mem_filterMap.1 h
  have hnothing := (isAllAbsent_of_examine hexamine).symm.trans ht
  exact ⟨e, he, isNil_of_selectsNothing hexamine hnothing, hnothing, (examine_tuple hexamine).2.2.2⟩

variable (r scope) in
/-- How many nil elements the constraint selects that select nothing. -/
def voids : Nat := (r.elements scope).countP fun e => e.isNil && r.selectsNothing e

/-- A tuple without a value comes at most as often as there are nil elements that select nothing. -/
theorem count_tuples_le (ht : FieldTuple.isAllAbsent t = true) :
    ((r.tuples policy scope).map Prod.fst).count t ≤ r.voids scope := by
  rw [tuples_eq, List.count_eq_countP, List.countP_map, List.countP_filterMap]
  refine List.countP_mono_left fun e _ he => ?_
  cases hexamine : (r.examine policy e).tuple? with
  | none => simp [hexamine] at he
  | some u =>
      have hu : u.1 = t := by simpa [hexamine] using he
      have hnothing : r.selectsNothing e = true :=
        (isAllAbsent_of_examine hexamine).symm.trans (hu ▸ ht)
      exact Bool.and_eq_true_iff.2 ⟨isNil_of_selectsNothing hexamine hnothing, hnothing⟩

end Rule

namespace Schema

variable {s : Schema} (policy : AbsentKeyPolicy)

/-- An element that is not nil and selects nothing has no tuple; in a unique or a keyref all others
have theirs, unless a field has several values. Only nil elements repeat a tuple without a value,
where there are at least two of them, or refer with one, as often as it comes. -/
theorem checkScope_absent (resolves : Bool) (ids : List IdentityId) (scope : Decoded)
    (below : HeldTuples) :
    (∀ r : Rule,
      (∀ e ∈ r.elements scope, e.isNil = false → r.selectsNothing e = true →
        (r.examine policy e).tuple? = none) ∧
      (r.declared.isKey = false → ∀ e ∈ r.elements scope, ∀ t,
        (r.fields.mapM fun field => field.fieldValue e) = .ok t →
        (r.examine policy e).tuple? =
          if r.selectsNothing e && !e.isNil then none else some (t, e.path)) ∧
      ∀ t ∈ r.tuples policy scope, FieldTuple.isAllAbsent t.1 = true →
        ∃ e ∈ r.elements scope, e.isNil = true ∧ r.selectsNothing e = true ∧ t.2 = e.path) ∧
    ∀ d ∈ (s.checkScope policy resolves ids scope below).problems, ∀ t,
      FieldTuple.isAllAbsent t = true →
      (∀ text, d.cause = .identity (.duplicate t text) → ∃ id ∈ ids,
        text = (s.rule id).declared.text ∧ 2 ≤ (s.rule id).voids scope ∧
          ∃ e ∈ (s.rule id).elements scope, e.isNil = true ∧ (s.rule id).selectsNothing e = true ∧
            d.path = e.path) ∧
      ∀ text times, d.cause = .identity (.dangling t text times) → ∃ id ∈ ids,
        (s.rule id).declared.isKeyref = true ∧ 0 < times ∧ times ≤ (s.rule id).voids scope := by
  refine ⟨fun r => ⟨fun e _ hnil hnothing => ?_, fun hkey e _ t => Rule.examine_of_fields hkey,
    fun t ht => Rule.element_of_isAllAbsent ht⟩, fun d hd t habsent => ?_⟩
  · refine Option.eq_none_iff_forall_ne_some.2 fun u hu => ?_
    exact Bool.eq_false_iff.1 hnil (Rule.isNil_of_selectsNothing hu hnothing)
  · obtain ⟨id, hid, hd | hd⟩ := problem_cases policy hd
    · obtain h | ⟨-, u, hu, rfl⟩ := own_cases policy hd
      · obtain rfl | ⟨_, -, ⟨_, -, rfl⟩ | ⟨_, _, rfl⟩⟩ := Rule.problem_cases h <;>
          exact ⟨nofun, nofun⟩
      · refine ⟨fun text h => ?_, nofun⟩
        cases h
        exact ⟨id, hid, rfl,
          Nat.le_trans (TupleCounter.two_le_count_of_mem_seconds hu) (Rule.count_tuples_le habsent),
          Rule.element_of_isAllAbsent (TupleCounter.mem_of_mem_seconds hu) habsent⟩
    · obtain ⟨hkeyref, key, -, u, hu, rfl⟩ := dangling_cases policy hd
      refine ⟨nofun, fun text times h => ?_⟩
      cases h
      exact ⟨id, hid, hkeyref, List.count_pos_iff.2 hu, Rule.count_tuples_le habsent⟩

end Schema

/-- Items with unique values, which refer to the values of other elements. -/
def absenceSample : Components :=
  let c := Components.withElements .v10 [("item", ⟨0, none⟩), ("other", ⟨0, none⟩)]
  let c := (c.addIdentity ⟨.plain "values", .unique, "item", ["."], .empty⟩).2
  let c := (c.addIdentity ⟨.plain "others", .unique, "other", ["."], .empty⟩).2
  (c.addIdentity ⟨.plain "uses", .keyref (.plain "others"), "item", ["."], .empty⟩).2

/-- An empty item and two nil ones. -/
def absenceScope : Decoded :=
  let item (isNil : Bool) (path : String) : Decoded :=
    { Decoded.leaf (.plain "item") path with isNil }
  { Decoded.leaf (.plain "items") "/items" with
    children := [item false "/items/item[1]", item true "/items/item[2]",
      item true "/items/item[3]"] }

/-- The repeated tuple is that of the nil items. The empty one has none. -/
theorem checkScope_absent_sample :
    let s := absenceSample.schema
    (∃ e ∈ (s.rule ⟨0⟩).elements absenceScope, e.path = "/items/item[1]" ∧
      ((s.rule ⟨0⟩).examine .error e).tuple? = none) ∧
    ∃ d ∈ (s.checkScope .error true [⟨0⟩] absenceScope .empty).problems,
      d.cause = .identity (.duplicate [.absent] "unique 'values'") ∧
      ∃ id ∈ [⟨0⟩], 2 ≤ (s.rule id).voids absenceScope ∧
        ∃ e ∈ (s.rule id).elements absenceScope, e.isNil = true ∧ d.path = e.path := by
  obtain ⟨hrule, hproblems⟩ := Schema.checkScope_absent (s := absenceSample.schema) .error true
    [⟨0⟩] absenceScope .empty
  constructor
  · have hfirst : (((absenceSample.schema.rule ⟨0⟩).elements absenceScope)[0]?.map fun e =>
        (e.path, e.isNil, (absenceSample.schema.rule ⟨0⟩).selectsNothing e)) =
          some ("/items/item[1]", false, true) := by
      decide +kernel
    obtain ⟨e, he, heq⟩ := Option.map_eq_some_iff.1 hfirst
    obtain ⟨hpath, hnil, hnothing⟩ : e.path = _ ∧ e.isNil = _ ∧ _ := by simpa using heq
    have hmem := List.mem_of_getElem? he
    exact ⟨e, hmem, hpath, (hrule _).1 e hmem hnil hnothing⟩
  · have hcauses : .identity (.duplicate [.absent] "unique 'values'") ∈
        (absenceSample.schema.checkScope .error true [⟨0⟩] absenceScope .empty).problems.map
          Diagnostic.cause := by
      decide +kernel
    obtain ⟨d, hd, hcause⟩ := List.mem_map.1 hcauses
    obtain ⟨id, hid, -, htwo, e, he, hnil, -, hpath⟩ := (hproblems d hd _ rfl).1 _ hcause
    exact ⟨d, hd, hcause, id, hid, htwo, e, he, hnil, hpath⟩

/-- The tuples of nil items are kept although they have no value. They are counted as the same
tuple, and they are looked up. -/
theorem absent_counted :
    let s := absenceSample.schema
    (s.rule ⟨0⟩).tuples .error absenceScope =
        [([.absent], "/items/item[2]"), ([.absent], "/items/item[3]")] ∧
      (s.checkScope .error true [⟨0⟩, ⟨1⟩, ⟨2⟩] absenceScope .empty).problems.map
          (fun d => (d.reason, d.path)) =
        [("duplicated value (None,) for unique 'values'", "/items/item[3]"),
          ("value (None,) not found for unique 'others' (2 times)", "/items")] := by
  decide +kernel

end Conform
