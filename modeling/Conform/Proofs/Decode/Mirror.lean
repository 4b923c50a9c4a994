import Conform.Proofs.Decode.Parts
import Conform.Proofs.Listing
import Conform.Proofs.Model.Placement
import Conform.Proofs.Schema.Sample
/-!
# Nothing is lost in decoding

A strict pass that comes to its end has decoded every element, and nothing else: each child is
attributed to a leaf, since otherwise its content model has an issue, and content that admits no
children has none. The attributes of an element are those of the document, and the defaults of
declared ones that it lacks.
-/

namespace Conform

/-! ## Trees of one shape -/

namespace Element

mutual

/-- The decoded tree has the shape of the element's, and `P` relates each element to the decoded one
in its place. -/
def Mirrors (P : Element → Decoded → Prop) : Element → Decoded → Prop
  | e@⟨_, _, _, _, children, _⟩, d => P e d ∧ MirrorsAll P children d.children

/-- The decoded trees have the shapes of the elements', one for one. -/
def MirrorsAll (P : Element → Decoded → Prop) : List Element → List Decoded → Prop
  | [], ds => ds = []
  | e :: rest, ds => ∃ d more, ds = d :: more ∧ e.Mirrors P d ∧ MirrorsAll P rest more

end

variable {P Q : Element → Decoded → Prop}

theorem mirrors_iff {e : Element} {d : Decoded} :
    e.Mirrors P d ↔ P e d ∧ MirrorsAll P e.children d.children := by
  obtain ⟨name, attributes, text, tail, children, scope⟩ := e
  rw [Mirrors]

mutual

/-- Trees of one shape have their elements in one order. -/
theorem Mirrors.nodes : ∀ {e : Element} {d : Decoded}, e.Mirrors P d → ∀ level,
    List.Forall₂ P ((e.outline level).map Prod.snd) d.nodes
  | ⟨name, attributes, text, tail, children, scope⟩,
    ⟨_, _, _, _, below, _, _, _, _⟩, h, level => by
    rw [Mirrors] at h
    rw [outline, Decoded.nodes, List.map_cons]
    exact .cons h.1 (MirrorsAll.nodes h.2 (level + 1))

theorem MirrorsAll.nodes : ∀ {es : List Element} {ds : List Decoded}, MirrorsAll P es ds →
    ∀ level, List.Forall₂ P ((outlineAll level es).map Prod.snd) (Decoded.nodesOfAll ds)
  | [], _, h, level => by
    rw [MirrorsAll] at h
    subst h
    exact .nil
  | e :: rest, _, h, level => by
    rw [MirrorsAll] at h
    obtain ⟨d, more, rfl, hfirst, hrest⟩ := h
    rw [outlineAll, Decoded.nodesOfAll, List.map_append]
    exact List.rel_append (hfirst.nodes level) (MirrorsAll.nodes hrest level)

end

theorem length_childPathsFrom (path : String) (all : List QName) :
    ∀ (before : List QName) (es : List Element),
      (childPathsFrom path all before es).length = es.length
  | _, [] => rfl
  | before, e :: rest => congrArg (· + 1) (length_childPathsFrom path all (e.name :: before) rest)

end Element

/-! ## Decoded attributes -/

/-- The attributes that are not about the instance. -/
def Element.ownAttributes (e : Element) : List (QName × String) :=
  e.attributes.entries.filter fun a => a.1.space ≠ QName.instanceSpace

namespace Schema

open Pass

variable {s : Schema} {o : Options}

/-- A declaration of the type gives this value to an attribute that is absent. -/
def IsDefault (s : Schema) (type : TypeDefinition) (name : QName) (value : Json) : Prop :=
  ∃ t declared written simple, type = .complex t ∧ declared ∈ t.attributes.values ∧
    declared.name = name ∧ declared.valueConstraint = some written ∧
    s.simpleType declared.type = .ok simple ∧ simple.builtin.decode written = .ok value

theorem map_fst_eq {R : QName × String → QName × Json → Prop} {as : List (QName × String)}
    {ds : List (QName × Json)} (h : List.Forall₂ (fun a d => d.1 = a.1 ∧ R a d) as ds) :
    ds.map Prod.fst = as.map Prod.fst := by
  induction h with
  | nil => rfl
  | cons hfirst _ ih => rw [List.map_cons, List.map_cons, hfirst.1, ih]

/-- The attributes of an element are decoded one by one, and behind them come defaults of
attributes that it does not have. -/
def HasAttributes (s : Schema) (o : Options) (id : ElementId) (path : String)
    (type : TypeDefinition) (e : Element) (l : Listing QName Json) : Prop :=
  ∃ written added, l.entries = written ++ added ∧
    List.Forall₂ (fun a d => d.1 = a.1 ∧ ∃ ds,
      s.decodeAttribute id path type.asComplex? e a.1 a.2 o = .ok (some d.2, ds))
      e.ownAttributes written ∧
    ∀ a ∈ added, o.usesDefaults = true ∧ a.1 ∉ e.attributes.keys ∧ s.IsDefault type a.1 a.2

/-- No attribute that is prohibited is left out by a strict pass: it ends there. -/
theorem decodeAttribute_strict (hmode : o.mode = .strict) {id : ElementId} {path : String}
    {type : Option ComplexType} {e : Element} {name : QName} {written : String} {ds}
    (h : s.decodeAttribute id path type e name written o = .ok (none, ds)) : False := by
  unfold decodeAttribute at h
  cases hdeclared : type.bind fun t => t.attributes.get? name with
  | none =>
      simp only [hdeclared] at h
      obtain ⟨_, _, _, -, hdone, -⟩ := ok_of_andThen h
      cases hdone
  | some a =>
      simp only [hdeclared] at h
      split at h
      · obtain ⟨_, _, _, hreport, -, -⟩ := ok_of_andThen h
        exact report_strict hmode rfl hreport
      · obtain ⟨_, _, _, -, hdone, -⟩ := ok_of_andThen h
        cases hdone

theorem decodeAttributes_strict (hmode : o.mode = .strict) {id : ElementId} {path : String}
    {type : Option ComplexType} {e : Element} :
    ∀ {entries : List (QName × String)} {decoded result : Listing QName Json} {ds},
      (entries.map Prod.fst).Nodup → (∀ a ∈ entries, a.1 ∉ decoded.keys) →
      s.decodeAttributes id path type e entries decoded o = .ok (result, ds) →
        ∃ written, result.entries = decoded.entries ++ written ∧
          List.Forall₂ (fun a d => d.1 = a.1 ∧ ∃ ds,
            s.decodeAttribute id path type e a.1 a.2 o = .ok (some d.2, ds))
            (entries.filter fun a => a.1.space ≠ QName.instanceSpace) written
  | [], decoded, result, ds, _, _, h => by
    cases h
    exact ⟨[], (List.append_nil _).symm, .nil⟩
  | (name, value) :: rest, decoded, result, ds, hnodup, hnew, h => by
    rw [List.map_cons, List.nodup_cons] at hnodup
    have hlater : ∀ a ∈ rest, a.1 ∉ decoded.keys := fun a ha => hnew a (List.mem_cons_of_mem _ ha)
    unfold decodeAttributes at h
    split at h
    · rename_i hspace
      rw [List.filter_cons_of_neg (by simpa using hspace)]
      exact decodeAttributes_strict hmode hnodup.2 hlater h
    · rename_i hspace
      rw [List.filter_cons_of_pos (by simpa using hspace)]
      obtain ⟨decodedValue, ds₁, ds₂, hvalue, hrest, -⟩ := ok_of_andThen h
      cases decodedValue with
      | none => exact (decodeAttribute_strict hmode hvalue).elim
      | some v =>
          have hplace : (decoded.insert name v).entries = decoded.entries ++ [(name, v)] := by
            have hput : Listing.put name v (decoded.entries ++ []) =
                decoded.entries ++ Listing.put name v [] :=
              Listing.put_append (hnew _ List.mem_cons_self)
            rwa [List.append_nil] at hput
          have hfree : ∀ a ∈ rest, a.1 ∉ (decoded.insert name v).keys := by
            intro a ha hmem
            rw [Listing.keys, hplace, List.map_append, List.mem_append] at hmem
            rcases hmem with hmem | hmem
            · exact hlater a ha hmem
            · rw [List.map_singleton, List.mem_singleton] at hmem
              exact hnodup.1 (hmem ▸ List.mem_map_of_mem ha)
          obtain ⟨written, hresult, hall⟩ := decodeAttributes_strict hmode hnodup.2 hfree hrest
          refine ⟨(name, v) :: written, ?_, .cons ⟨rfl, ds₁, hvalue⟩ hall⟩
          rw [hresult, hplace, List.append_assoc]
          rfl

theorem missingAttribute_ok {id : ElementId} {path : String} {e : Element}
    {a : AttributeDeclaration} {value : Json} {ds : List Diagnostic}
    (h : s.missingAttribute id path e a o = .ok (some value, ds)) :
    a.name ∉ e.attributes.keys ∧ ∃ written simple, a.valueConstraint = some written ∧
      s.simpleType a.type = .ok simple ∧ simple.builtin.decode written = .ok value := by
  unfold missingAttribute at h
  split at h
  · cases h
  rename_i habsent
  have hkeys : a.name ∉ e.attributes.keys := by
    intro hmem
    rw [Listing.contains_iff.2 hmem] at habsent
    exact habsent rfl
  split at h
  · obtain ⟨_, _, _, -, hdone, -⟩ := ok_of_andThen h
    cases hdone
  · cases hwritten : a.valueConstraint with
    | none =>
        simp only [hwritten] at h
        cases h
    | some written =>
        simp only [hwritten] at h
        obtain ⟨simple, _, _, hsimple, hdone, -⟩ := ok_of_andThen h
        refine ⟨hkeys, written, simple, rfl, (ok_of_ofExcept hsimple).1, ?_⟩
        cases hdecode : simple.builtin.decode written with
        | error fault =>
            rw [hdecode] at hdone
            cases hdone
        | ok v =>
            rw [hdecode] at hdone
            cases hdone
            rfl

theorem missingAttributes_ok {id : ElementId} {path : String} {e : Element} :
    ∀ {as : List AttributeDeclaration} {defaults : List (QName × Json)} {ds : List Diagnostic},
      s.missingAttributes id path e as o = .ok (defaults, ds) →
        ∀ d ∈ defaults, d.1 ∉ e.attributes.keys ∧ ∃ a ∈ as, a.name = d.1 ∧
          ∃ written simple, a.valueConstraint = some written ∧
            s.simpleType a.type = .ok simple ∧ simple.builtin.decode written = .ok d.2
  | [], _, _, h, d, hd => by
    cases h
    cases hd
  | a :: rest, _, _, h, d, hd => by
    obtain ⟨value, _, _, hvalue, hrest, -⟩ := ok_of_andThen h
    obtain ⟨values, _, _, hvalues, hdone, -⟩ := ok_of_andThen hrest
    cases hdone
    rcases List.mem_append.1 hd with hd | hd
    · obtain ⟨v, hv, rfl⟩ := List.mem_map.1 hd
      rw [Option.mem_toList.1 hv] at hvalue
      obtain ⟨hkeys, hdefault⟩ := missingAttribute_ok hvalue
      exact ⟨hkeys, a, List.mem_cons_self, rfl, hdefault⟩
    · obtain ⟨hkeys, a', ha', hdefault⟩ := missingAttributes_ok hvalues d hd
      exact ⟨hkeys, a', List.mem_cons_of_mem _ ha', hdefault⟩

theorem attributesOf_strict (hmode : o.mode = .strict) {id : ElementId} {path : String}
    {type : TypeDefinition} {e : Element} {values : DecodedAttributes} {ds : List Diagnostic}
    (h : s.attributesOf id path type e o = .ok (values, ds)) :
    s.HasAttributes o id path type e values.attributes := by
  unfold attributesOf at h
  obtain ⟨decoded, _, _, hdecoded, hrest, -⟩ := ok_of_andThen h
  obtain ⟨defaults, _, _, hdefaults, hdone, -⟩ := ok_of_andThen hrest
  simp only [bind_eq_andThen, options_andThen] at hdone
  cases hdone
  obtain ⟨written, hwritten, hall⟩ := decodeAttributes_strict hmode e.attributes.nodup
    (fun _ _ => List.not_mem_nil) hdecoded
  have hkeys : ∀ k ∈ decoded.keys, k ∈ e.attributes.keys := by
    intro k hk
    have hmem : k ∈ written.map Prod.fst := by rwa [Listing.keys, hwritten] at hk
    rw [map_fst_eq hall] at hmem
    exact (List.filter_sublist.map Prod.fst).subset hmem
  have hmissing := missingAttributes_ok hdefaults
  by_cases huses : o.usesDefaults = true
  · rw [if_pos huses]
    have hadded := decoded.entries_foldl_insert fun d hd hk => (hmissing d hd).1 (hkeys _ hk)
    refine ⟨written, _, by rw [hadded, hwritten]; rfl, hall, fun a ha => ?_⟩
    obtain ⟨habsent, declared, hdeclared, hname, w, simple, hdefault⟩ :=
      hmissing a (Listing.mem_ofList ha)
    cases type with
    | simple t => cases hdeclared
    | complex t => exact ⟨huses, habsent, t, declared, w, simple, rfl, hdeclared, hname, hdefault⟩
  · rw [if_neg huses]
    exact ⟨written, [], by rw [hwritten]; simp [Listing.empty], hall,
      fun a ha => absurd ha List.not_mem_nil⟩

/-! ## Decoded elements -/

/-- An element is decoded by a declaration. -/
structure IsDeclared (s : Schema) (o : Options) (e : Element) (d : Decoded) (id : ElementId) :
    Prop where
  declaration : d.declaration = some id
  decoded : ∃ level t ds, s.decodeElement id level d.path e o = .ok (t, ds) ∧ t.element = d
  attributes : ∃ type ds, s.typeOf id d.path e o = .ok (type, ds) ∧
    s.HasAttributes o id d.path (s.type type) e d.attributes

/-- An element is kept as it is. -/
structure IsRaw (s : Schema) (o : Options) (e : Element) (d : Decoded) : Prop where
  declaration : d.declaration = none
  decoded : ∃ level, decodeRaw s.limits o level d.path e = .ok d
  attributes : d.attributes = e.rawAttributes

/-- An element is decoded under its name, by a declaration or as it is. -/
def Renders (s : Schema) (o : Options) (e : Element) (d : Decoded) : Prop :=
  d.tag = e.name ∧ ((∃ id, s.IsDeclared o e d id) ∨ s.IsRaw o e d)

/-- The attributes of an element are there in their order, and others only by default. -/
theorem Renders.attributes {e : Element} {d : Decoded} (h : s.Renders o e d) :
    (e.ownAttributes.map Prod.fst).Sublist d.attributes.keys ∧
      ∀ a ∈ d.attributes.entries, a.1 ∈ e.attributes.keys ∨ o.usesDefaults = true ∧
        ∃ id type ds, d.declaration = some id ∧ s.typeOf id d.path e o = .ok (type, ds) ∧
          s.IsDefault (s.type type) a.1 a.2 := by
  rcases h.2 with ⟨id, hdeclared⟩ | hraw
  · obtain ⟨type, ds, htype, written, added, hentries, hall, hadded⟩ := hdeclared.attributes
    refine ⟨?_, fun a ha => ?_⟩
    · rw [Listing.keys, hentries, List.map_append, map_fst_eq hall]
      exact List.sublist_append_left ..
    · rw [hentries] at ha
      rcases List.mem_append.1 ha with ha | ha
      · have hmem := List.mem_map_of_mem (f := Prod.fst) ha
        rw [map_fst_eq hall] at hmem
        exact .inl ((List.filter_sublist.map Prod.fst).subset hmem)
      · obtain ⟨huses, -, hdefault⟩ := hadded a ha
        exact .inr ⟨huses, id, type, ds, hdeclared.declaration, htype, hdefault⟩
  · have hkeys : d.attributes.keys = e.attributes.keys := by
      rw [hraw.attributes]
      simp [Element.rawAttributes, Listing.mapValues, Listing.keys]
    rw [hkeys]
    refine ⟨List.filter_sublist.map Prod.fst, fun a ha => .inl ?_⟩
    exact hkeys ▸ List.mem_map_of_mem ha

theorem renders_of_decodeElement (hmode : o.mode = .strict) {id : ElementId} {level : Nat}
    {path : String} {e : Element} {t : Subtree} {ds : List Diagnostic}
    (h : s.decodeElement id level path e o = .ok (t, ds)) : s.Renders o e t.element := by
  have hwhole := h
  rw [decodeElement_eq] at h
  obtain ⟨opened, _, _, hopen, hrest, -⟩ := ok_of_andThen h
  obtain ⟨content, _, _, hcontent, hclose, -⟩ := ok_of_andThen hrest
  have helement : t.element = content.element := closeElement_yields id content _ _ _ hclose
  obtain ⟨htag, hpath, hattributes, hdeclaration⟩ :=
    contentOf_yields id level path e opened _ _ _ hcontent
  obtain ⟨type, isNil, values, ⟨ds', htype⟩, -, ⟨_, hvalues⟩, hopened, -⟩ :=
    openElement_ok hopen
  rw [hopened] at htag hpath hattributes hdeclaration
  rw [← helement] at htag hpath hattributes hdeclaration
  have hpath' : t.element.path = path := hpath
  refine ⟨htag, .inl ⟨id, hdeclaration, ⟨level, t, ds, hpath' ▸ hwhole, rfl⟩, type, ds', ?_, ?_⟩⟩
  · rw [hpath']
    exact htype
  · rw [hpath', hattributes]
    exact attributesOf_strict hmode hvalues

mutual

theorem decodeRaw_mirrors (hdepth : o.maxDepth = none) : ∀ {level : Nat} {path : String}
    {e : Element} {d : Decoded}, decodeRaw s.limits o level path e = .ok d →
      e.Mirrors (s.Renders o) d
  | level, path, ⟨name, attributes, text, tail, children, scope⟩, d, h => by
    have hwhole := h
    unfold decodeRaw at h
    split at h
    · cases h
    rw [if_neg (by simp [Options.isTooDeep, hdepth])] at h
    split at h
    · cases h
    rename_i below hbelow
    cases h
    exact ⟨⟨rfl, .inr ⟨rfl, ⟨level, hwhole⟩, rfl⟩⟩,
      decodeRawAll_mirrors hdepth (Element.length_childPathsFrom _ _ [] children) hbelow⟩

theorem decodeRawAll_mirrors (hdepth : o.maxDepth = none) : ∀ {level : Nat} {paths : List String}
    {es : List Element} {ds : List Decoded}, paths.length = es.length →
      decodeRawAll s.limits o level paths es = .ok ds → Element.MirrorsAll (s.Renders o) es ds
  | level, path :: paths, e :: rest, ds, hlength, h => by
    unfold decodeRawAll at h
    split at h
    · cases h
    rename_i decoded hdecoded
    split at h
    · cases h
    rename_i more hmore
    cases h
    rw [Element.MirrorsAll]
    exact ⟨decoded, more, rfl, decodeRaw_mirrors hdepth hdecoded,
      decodeRawAll_mirrors hdepth (Nat.succ.inj hlength) hmore⟩
  | _, [], _ :: _, _, hlength, _ => by cases hlength
  | _, [], [], _, _, h => by
    cases h
    rw [Element.MirrorsAll]

end

/-- A leaf that takes a child tells how the child is decoded. -/
theorem treatment_of_passes {leaf : Member} {name : QName} (h : s.passes leaf name = true) :
    ∃ treatment, s.treatment leaf name = some treatment := by
  cases leaf with
  | group id => cases h
  | element id => exact ⟨_, rfl⟩
  | wildcard id =>
      unfold treatment
      dsimp only
      cases (s.wildcard id).process <;> cases s.elementNamed? name <;> exact ⟨_, rfl⟩

/-- No type leaves out the content. -/
theorem formOf_ne_absent (t : TypeDefinition) : s.formOf t ≠ .ok .absent := by
  intro h
  unfold formOf at h
  split at h
  · cases h
  · split at h
    · cases h
    · unfold simpleType at h
      split at h <;> cases h
    · split at h <;> cases h
    · split at h <;> cases h

/-- Content without children is decoded only where there are none. -/
theorem children_of_decodeLeaf (hmode : o.mode = .strict) {id : ElementId} {path : String}
    {e : Element} {decoded : Decoded} {form : Form} {t : Subtree} {ds : List Diagnostic}
    (h : s.decodeLeaf id path e decoded form o = .ok (t, ds))
    (habsent : form ≠ .absent) (hform : ∀ group isMixed, form ≠ .children group isMixed) :
    e.children = [] := by
  unfold decodeLeaf at h
  cases form with
  | absent => exact absurd rfl habsent
  | children group isMixed => exact absurd rfl (hform group isMixed)
  | empty =>
      obtain ⟨_, _, _, hreport, -, -⟩ := ok_of_andThen h
      have hwrong := reportIf_strict hmode rfl hreport
      simpa using (Bool.or_eq_false_iff.1 hwrong).2
  | text type =>
      obtain ⟨_, _, _, htext, -, -⟩ := ok_of_andThen h
      obtain ⟨_, _, _, hreport, -, -⟩ := ok_of_andThen htext
      simpa using reportIf_strict hmode rfl hreport
  | unfulfillable =>
      obtain ⟨_, _, _, hreport, -, -⟩ := ok_of_andThen h
      exact (report_strict hmode rfl hreport).elim

/-- A nil element has no children. -/
theorem children_of_nilOf (hmode : o.mode = .strict) {id : ElementId} {path : String}
    {e : Element} {ds : List Diagnostic} (h : s.nilOf id path e o = .ok (true, ds)) :
    e.children = [] := by
  unfold nilOf at h
  cases hvalue : (e.attribute? ⟨QName.instanceSpace, "nil"⟩).map Text.trim with
  | none =>
      simp only [hvalue] at h
      cases h
  | some value =>
      simp only [hvalue] at h
      split at h
      · split at h
        · obtain ⟨_, _, _, hreport, -, -⟩ := ok_of_andThen h
          have hwrong := reportIf_strict hmode rfl hreport
          simpa using (Bool.or_eq_false_iff.1 hwrong).2
        · obtain ⟨_, _, _, -, hdone, -⟩ := ok_of_andThen h
          cases hdone
      · obtain ⟨_, _, _, -, hdone, -⟩ := ok_of_andThen h
        cases hdone

/-- The children of a content without issues have leaves that take them. -/
def HaveLeaves (s : Schema) (leaves : List (Option Member)) (es : List Element) : Prop :=
  List.Forall₂ (fun leaf name => ∃ l, leaf = some l ∧ s.passes l name = true) leaves
    (es.map (·.name))

mutual

theorem decodeElement_mirrors (hmode : o.mode = .strict) (hdepth : o.maxDepth = none) :
    ∀ {id : ElementId} {level : Nat} {path : String} {e : Element} {t : Subtree}
      {ds : List Diagnostic}, s.decodeElement id level path e o = .ok (t, ds) →
        e.Mirrors (s.Renders o) t.element
  | id, level, path, ⟨name, attributes, text, tail, children, scope⟩, t, ds, h => by
    rw [Element.Mirrors]
    refine ⟨renders_of_decodeElement hmode h, ?_⟩
    rw [decodeElement_eq] at h
    obtain ⟨opened, _, _, hopen, hrest, -⟩ := ok_of_andThen h
    obtain ⟨content, _, _, hcontent, hclose, -⟩ := ok_of_andThen hrest
    rw [closeElement_yields id content _ _ _ hclose]
    have hnone := (openElement_yields id level path _ _ _ _ hopen).2
    obtain ⟨type, isNil, values, -, ⟨_, hnil⟩, -, -, hcases⟩ := openElement_ok hopen
    unfold contentOf at hcontent
    cases hform : opened.form with
    | children group isMixed =>
        simp only [hform] at hcontent
        obtain ⟨start, _, _, hstart, hafter, -⟩ := ok_of_andThen hcontent
        obtain ⟨below, _, _, hchildren, hend, -⟩ := ok_of_andThen hafter
        obtain ⟨hissues, rfl⟩ := issues_of_closeContent hmode hend
        have hattribution := (openContent_ok hstart).1
        rw [attributionIn, if_neg (by simp [Options.isSkip, hmode])] at hattribution
        obtain ⟨_, -, hleaves⟩ := attribution_leaves hattribution hissues
        refine decodeChildren_mirrors hmode hdepth (hleaves.imp ?_)
          (Element.length_childPathsFrom _ _ [] children) hchildren
        rintro leaf name ⟨_, l, -, -, hl⟩
        exact ⟨l, hl⟩
    | absent | empty | text | unfulfillable =>
        simp only [hform] at hcontent
        have hempty : children = [] := by
          rcases hcases with ⟨htrue, -⟩ | ⟨-, hof⟩
          · exact children_of_nilOf hmode (htrue ▸ hnil)
          · exact children_of_decodeLeaf hmode hcontent
              (fun habsent => formOf_ne_absent _ (habsent ▸ hform ▸ hof)) nofun
        rw [(decodeLeaf_yields id path _ _ _ _ _ _ hcontent).2.1, hnone, hempty]
        rw [Element.MirrorsAll]

theorem decodeChildren_mirrors (hmode : o.mode = .strict) (hdepth : o.maxDepth = none) :
    ∀ {level : Nat} {leaves : List (Option Member)} {paths : List String} {es : List Element}
      {below : Children} {ds : List Diagnostic}, s.HaveLeaves leaves es →
      paths.length = es.length → s.decodeChildren level leaves paths es o = .ok (below, ds) →
        Element.MirrorsAll (s.Renders o) es below.elements
  | level, leaf :: leaves, path :: paths, e :: rest, below, ds, hleaves, hlength, h => by
    obtain ⟨l, rfl, hpasses⟩ := (List.forall₂_cons.1 hleaves).1
    have hleaves : s.HaveLeaves leaves rest := (List.forall₂_cons.1 hleaves).2
    obtain ⟨treatment, htreatment⟩ := treatment_of_passes hpasses
    unfold decodeChildren at h
    simp only [Option.bind_some, htreatment, bind_eq_andThen, options_andThen] at h
    rw [if_neg (by simp [Options.isTooDeep, hdepth])] at h
    obtain ⟨here, _, _, hhere, hrest, -⟩ := ok_of_andThen h
    obtain ⟨after, _, _, hafter, hdone, -⟩ := ok_of_andThen hrest
    cases hdone
    have hmore := decodeChildren_mirrors hmode hdepth hleaves (Nat.succ.inj hlength) hafter
    rw [Element.MirrorsAll]
    cases treatment with
    | declared id =>
        obtain ⟨t, _, _, ht, hdone, -⟩ := ok_of_andThen hhere
        cases hdone
        exact ⟨t.element, after.elements, rfl, decodeElement_mirrors hmode hdepth ht, hmore⟩
    | raw isMissed =>
        obtain ⟨t, _, _, ht, hdone, -⟩ := ok_of_andThen hhere
        cases hdone
        refine ⟨t.element, after.elements, rfl, ?_, hmore⟩
        obtain ⟨_, _, _, -, hkept, -⟩ := ok_of_andThen ht
        simp only [bind_eq_andThen, options_andThen] at hkept
        obtain ⟨d, _, _, hd, hdone, -⟩ := ok_of_andThen hkept
        cases hdone
        exact decodeRaw_mirrors hdepth (ok_of_ofExcept hd).1
  | _, [], _, _ :: _, _, _, hleaves, _, _ => by cases hleaves
  | _, _ :: _, [], _ :: _, _, _, _, hlength, _ => by cases hlength
  | _, _, _ :: _, [], _, _, _, hlength, _ => by cases hlength
  | _, [], [], [], _, _, _, _, h => by
    cases h
    rw [Element.MirrorsAll]
    rfl
  | _, _ :: _, [], [], _, _, hleaves, _, _ => by cases hleaves

end

/-! ## Documents -/

end Schema

/-- An `a` and then anything, under an element with an attribute that has a default. -/
def mirrorSample : Components :=
  let c := Components.withElements .v10 [("a", .once)]
  let c := (c.addWildcard ⟨.any, .lax, .zeroOrMore, none⟩).2
  let c := c.withGroup .sequence .once [.element ⟨0⟩, .wildcard ⟨0⟩]
  let type := (ComplexType.ofContent (.elementOnly ⟨0⟩)).withAttribute
    ⟨.plain "lang", ⟨0⟩, .optional, some "en", none⟩
  let c := (c.addLocalType (.complex (type.withAttribute
    ⟨.plain "n", ⟨0⟩, .optional, none, none⟩))).2
  (c.addGlobalElement (.simple (.plain "root") ⟨1⟩)).2

/-- An `a`, and then a `b` with a `c` in it, under a root with one of its attributes. -/
def mirrorDocument : Document :=
  ⟨some { (Element.leaf (.plain "root")).withAttribute (.plain "n") "1" with
    children := [.leaf (.plain "a"), (Element.leaf (.plain "b")).addChild (.leaf (.plain "c"))] }⟩

end Conform
