import Conform.Proofs.Decode.Parts
import Conform.Proofs.Identity.References
import Conform.Proofs.Schema.Sample
/-!
# References of a document

A pass completes the elements of a document from the leaves up, and with each of them it reports the
references of its own constraints that lead nowhere. What a pass holds on its way up are the tuples
of the keys in the part of the document that it leaves.
-/

namespace Conform

namespace Decoded

mutual

/-- The element and its descendants in the order in which they are completed. -/
def closing : Decoded → List Decoded
  | d@⟨_, _, _, _, children, _, _, _, _⟩ => closingOfAll children ++ [d]

/-- The elements of trees in the order in which they are completed. -/
def closingOfAll : List Decoded → List Decoded
  | [] => []
  | d :: rest => d.closing ++ closingOfAll rest

end

theorem closingOfAll_singleton (d : Decoded) :
    closingOfAll [d] = closingOfAll d.children ++ [d] := by
  cases d
  rw [closingOfAll, closingOfAll, closing, List.append_nil]

theorem nodesOfAll_singleton (d : Decoded) : nodesOfAll [d] = d :: nodesOfAll d.children := by
  cases d
  rw [nodesOfAll, nodesOfAll, nodes, List.append_nil]

theorem closingOfAll_append (ds es : List Decoded) :
    closingOfAll (ds ++ es) = closingOfAll ds ++ closingOfAll es := by
  induction ds with
  | nil => rfl
  | cons d ds ih => rw [List.cons_append, closingOfAll, closingOfAll, ih, List.append_assoc]

theorem nodesOfAll_append (ds es : List Decoded) :
    nodesOfAll (ds ++ es) = nodesOfAll ds ++ nodesOfAll es := by
  induction ds with
  | nil => rfl
  | cons d ds ih => rw [List.cons_append, nodesOfAll, nodesOfAll, ih, List.append_assoc]

/-- Trees in which no element has a declaration. -/
def Undeclared (ds : List Decoded) : Prop := ∀ m ∈ nodesOfAll ds, m.declaration = none

theorem Undeclared.nil : Undeclared [] := nofun

theorem Undeclared.single {d : Decoded} (hd : d.declaration = none)
    (hchildren : Undeclared d.children) : Undeclared [d] := by
  intro m hm
  rw [nodesOfAll_singleton] at hm
  rcases List.mem_cons.1 hm with rfl | hm
  · exact hd
  · exact hchildren m hm

theorem Undeclared.append {ds es : List Decoded} (hd : Undeclared ds) (he : Undeclared es) :
    Undeclared (ds ++ es) := by
  intro m hm
  rw [nodesOfAll_append] at hm
  exact (List.mem_append.1 hm).elim (hd m) (he m)

mutual

theorem mem_closing : ∀ {d m : Decoded}, m ∈ d.closing → m ∈ d.nodes
  | ⟨_, _, _, _, children, _, _, _, _⟩, m, h => by
    rw [closing] at h
    rw [nodes]
    rcases List.mem_append.1 h with h | h
    · exact List.mem_cons_of_mem _ (mem_closingOfAll h)
    · exact List.mem_cons.2 (.inl (List.mem_singleton.1 h))

theorem mem_closingOfAll : ∀ {ds : List Decoded} {m : Decoded},
    m ∈ closingOfAll ds → m ∈ nodesOfAll ds
  | d :: rest, m, h => by
    rw [closingOfAll] at h
    rw [nodesOfAll]
    rcases List.mem_append.1 h with h | h
    · exact List.mem_append_left _ (mem_closing h)
    · exact List.mem_append_right _ (mem_closingOfAll h)

end

end Decoded

/-! ## Parts -/

namespace Pass

variable {α β : Type}

/-- A pass that reports no dangling reference. -/
def Quiet (p : Pass α) : Prop :=
  ∀ o a ds, p o = .ok (a, ds) → ds.filter Diagnostic.isDangling = []

theorem Quiet.andThen {p : Pass α} {f : α → Pass β} (hp : p.Quiet) (hf : ∀ a, (f a).Quiet) :
    (p.andThen f).Quiet := by
  intro o b ds h
  obtain ⟨a, first, more, ha, hb, rfl⟩ := ok_of_andThen h
  rw [List.filter_append, hp o a first ha, hf a o b more hb, List.append_nil]

theorem Quiet.ofExcept (e : Except Failure α) : (Pass.ofExcept e).Quiet := by
  intro o a ds h
  cases e with
  | error f => cases h
  | ok b =>
      cases h
      rfl

/-- Dangling references are only reported where identity constraints are checked. -/
theorem Quiet.modular {path : String} : Modular Eq path @Quiet where
  usesDefaults := congrArg _
  done _ := by
    intro o a ds h
    cases h
    rfl
  ofExcept _ := .ofExcept _
  report {d} hd := by
    intro o a ds h
    have hquiet : d.isDangling = false := by
      unfold Diagnostic.isDangling
      split
      · rename_i hcause
        exact absurd (by rw [Diagnostic.kind, hcause]; rfl) hd.kind_ne
      · rfl
    unfold Pass.report Mode.keep at h
    cases hmode : o.mode with
    | strict =>
        rw [hmode] at h
        dsimp only at h
        split at h
        · cases h
        · cases h
          simp [hquiet]
    | lax =>
        rw [hmode] at h
        cases h
        simp [hquiet]
    | skip =>
        rw [hmode] at h
        cases h
        rfl
  andThen := Quiet.andThen
  withOptions _ hf := Quiet.andThen (by
    intro o a ds h
    cases h
    rfl) hf

end Pass

namespace Schema

open Pass

variable {s : Schema}

mutual

theorem decodeRaw_undeclared {limits : Limits} {o : Options} :
    ∀ {level : Nat} {path : String} {e : Element} {d : Decoded},
      decodeRaw limits o level path e = .ok d → Decoded.Undeclared [d]
  | level, path, ⟨_, _, _, _, children, _⟩, d, h => by
    unfold decodeRaw at h
    split at h
    · cases h
    dsimp only at h
    split at h
    · cases h
      exact .single rfl .nil
    split at h
    · cases h
    rename_i ds hds
    cases h
    exact .single rfl (decodeRawAll_undeclared hds)

theorem decodeRawAll_undeclared {limits : Limits} {o : Options} :
    ∀ {level : Nat} {paths : List String} {es : List Element} {ds : List Decoded},
      decodeRawAll limits o level paths es = .ok ds → Decoded.Undeclared ds
  | level, path :: paths, e :: rest, ds, h => by
    unfold decodeRawAll at h
    split at h
    · cases h
    rename_i d hd
    split at h
    · cases h
    rename_i more hmore
    cases h
    exact .append (decodeRaw_undeclared hd) (decodeRawAll_undeclared hmore)
  | _, [], _ :: _, _, h => by
    cases h
    exact .nil
  | _, [], [], _, h => by
    cases h
    exact .nil
  | _, _ :: _, [], _, h => by
    cases h
    exact .nil

end

/-! ## The way up -/

/-- What a pass over a part of a document has come to: it has reported the references of the part
that lead nowhere, and it holds the tuples of the keys in it. -/
structure Resolved (s : Schema) (policy : AbsentKeyPolicy) (elements : List Decoded)
    (held : HeldTuples) (ds : List Diagnostic) : Prop where
  dangling : ds.filter Diagnostic.isDangling = (Decoded.closingOfAll elements).flatMap fun n =>
    (s.constraintsOf n).flatMap (s.unresolved policy n)
  held : ∀ {key : IdentityId} {t : FieldTuple}, (s.rule key).declared.isKeyref = false →
    (held.holds key t = true ↔ ∃ m ∈ Decoded.nodesOfAll elements,
      key ∈ s.constraintsOf m ∧ t ∈ s.collected policy m key)

variable {policy : AbsentKeyPolicy}

theorem Resolved.nil : Resolved s policy [] .empty [] where
  dangling := rfl
  held _ := by simp [HeldTuples.holds_empty, Decoded.nodesOfAll]

/-- The parts of a document do not meddle with each other. -/
theorem Resolved.append {es es' : List Decoded} {held held' : HeldTuples}
    {ds ds' : List Diagnostic} (h : Resolved s policy es held ds)
    (h' : Resolved s policy es' held' ds') :
    Resolved s policy (es ++ es') (held ++ held') (ds ++ ds') where
  dangling := by
    rw [List.filter_append, h.dangling, h'.dangling, Decoded.closingOfAll_append,
      List.flatMap_append]
  held {key t} hkey := by
    rw [HeldTuples.holds_append, Bool.or_eq_true, h.held hkey, h'.held hkey,
      Decoded.nodesOfAll_append]
    simp only [List.mem_append, or_and_right, exists_or]

/-- Diagnostics of other kinds do not matter. -/
theorem Resolved.quiet {es : List Decoded} {held : HeldTuples} {ds : List Diagnostic}
    (h : Resolved s policy es held ds) {before after : List Diagnostic}
    (hbefore : before.filter Diagnostic.isDangling = [])
    (hafter : after.filter Diagnostic.isDangling = []) :
    Resolved s policy es held (before ++ (ds ++ after)) where
  dangling := by
    rw [List.filter_append, List.filter_append, hbefore, hafter, List.nil_append, List.append_nil,
      h.dangling]
  held := h.held

/-- Elements without a declaration refer to nothing and hold nothing. -/
theorem Resolved.undeclared {es : List Decoded} (h : Decoded.Undeclared es)
    {ds : List Diagnostic} (hds : ds.filter Diagnostic.isDangling = []) :
    Resolved s policy es .empty ds where
  dangling := by
    rw [hds, eq_comm, List.flatMap_eq_nil_iff]
    intro n hn
    rw [constraintsOf, h n (Decoded.mem_closingOfAll hn)]
    rfl
  held {key t} _ := by
    rw [HeldTuples.holds_empty]
    constructor
    · nofun
    · rintro ⟨m, hm, hkey, -⟩
      rw [constraintsOf, h m hm] at hkey
      cases hkey

/-- The references of an element whose part of the document below is resolved. -/
theorem Resolved.unresolved_eq (hs : s.Built) {n : Decoded} {id : ElementId}
    (hid : n.declaration = some id) {held : HeldTuples} {ds : List Diagnostic}
    (h : Resolved s policy n.children held ds) (r : IdentityId) :
    (s.danglingReferences policy (s.constraintsOf n) n held r).map
      (fun d => { d with element := some id }) = s.unresolved policy n r := by
  rw [danglingReferences_eq policy hs]
  unfold unresolved
  cases hrefers : (s.rule r).refers with
  | none => rfl
  | some key =>
      dsimp only
      rw [List.map_map]
      have hkey := (hs.isKeyref_of_refers hrefers).2
      have hfilter : ∀ t, (decide ¬(if key ∈ s.constraintsOf n then t ∈ s.collected policy n key
          else held.holds key t)) = decide (t ∉ s.referable policy n key) := by
        intro t
        rw [decide_eq_decide]
        refine not_congr ?_
        unfold referable
        split
        · rfl
        · rw [h.held hkey, List.mem_flatMap]
          refine exists_congr fun m => and_congr_right fun _ => ?_
          split <;> simp_all
      simp only [hfilter]
      refine List.map_congr_left fun t _ => ?_
      simp [danglingAt, hid]

/-- An element is complete when its part of the document below is resolved and its constraints are
checked. -/
theorem Resolved.close (hs : s.Built) {o : Options} (hmode : o.mode = .lax)
    (hdepth : o.maxDepth = none) {id : ElementId} {t u : Subtree} {ds more : List Diagnostic}
    (hid : t.element.declaration = some id) (hwhole : t.isTruncated = false)
    (h : Resolved s o.absentKeys t.element.children t.held ds)
    (hclose : s.closeElement id t o = .ok (u, more)) :
    Resolved s o.absentKeys [u.element] u.held (ds ++ more) ∧ u.isTruncated = false := by
  unfold closeElement at hclose
  obtain ⟨_, _, _, hoptions, hcheck, rfl⟩ := ok_of_andThen hclose
  cases hoptions
  rw [if_neg (by simp [hwhole, Options.isSkip, hmode])] at hcheck
  obtain ⟨_, _, _, hreport, hdone, rfl⟩ := ok_of_andThen hcheck
  rw [reportAll_lax hmode] at hreport
  cases hreport
  cases hdone
  have hids : (s.element id).identities = s.constraintsOf t.element := by rw [constraintsOf, hid]
  have hresolves : o.maxDepth.isNone = true := by rw [hdepth]; rfl
  rw [hids, hresolves]
  refine ⟨⟨?_, fun {key} {x} hkey => ?_⟩, hwhole⟩
  · have hreported : ∀ problems : List Diagnostic,
        (problems.map fun d => { d with element := some id }).filter Diagnostic.isDangling =
          (problems.filter Diagnostic.isDangling).map fun d => { d with element := some id } :=
      fun _ => List.filter_map ..
    rw [List.nil_append, List.append_nil, List.filter_append, h.dangling, hreported,
      problems_checkScope, List.map_flatMap, Decoded.closingOfAll_singleton, List.flatMap_append,
      List.flatMap_singleton]
    simp only [h.unresolved_eq hs hid]
  · rw [held_checkScope o.absentKeys, h.held hkey, Decoded.nodesOfAll_singleton]
    simp only [hkey, true_and, List.mem_cons, exists_eq_or_imp]
    exact or_comm

theorem keepElement_resolved {isMissed : Bool} {level : Nat} {path : String} {e : Element}
    {o : Options} {t : Subtree} {ds : List Diagnostic}
    (h : s.keepElement isMissed level path e o = .ok (t, ds)) :
    Resolved s policy [t.element] t.held ds ∧ t.isTruncated = false := by
  have hquiet := Quiet.modular.keepElement (congrArg _) s isMissed level e o t ds h
  unfold keepElement at h
  obtain ⟨_, _, _, -, hrest, -⟩ := ok_of_andThen h
  obtain ⟨_, _, _, hoptions, hrest', -⟩ := ok_of_andThen hrest
  cases hoptions
  obtain ⟨d, _, _, hraw, hdone, -⟩ := ok_of_andThen hrest'
  cases hdone
  refine ⟨.undeclared ?_ hquiet, rfl⟩
  unfold Pass.ofExcept at hraw
  cases hd : decodeRaw s.limits o level path e with
  | error f =>
      rw [hd] at hraw
      cases hraw
  | ok d' =>
      rw [hd] at hraw
      cases hraw
      exact decodeRaw_undeclared hd

mutual

theorem decodeElement_resolved (hs : s.Built) {o : Options} (hmode : o.mode = .lax)
    (hdepth : o.maxDepth = none) :
    ∀ {id : ElementId} {level : Nat} {path : String} {e : Element} {t : Subtree}
      {ds : List Diagnostic}, s.decodeElement id level path e o = .ok (t, ds) →
        Resolved s o.absentKeys [t.element] t.held ds ∧ t.isTruncated = false
  | id, level, path, ⟨_, _, _, _, children, _⟩, t, ds, h => by
    unfold decodeElement at h
    obtain ⟨opened, ds₁, _, hopen, hrest, rfl⟩ := ok_of_andThen h
    obtain ⟨u, ds₂, ds₃, hcontent, hclose, rfl⟩ := ok_of_andThen hrest
    obtain ⟨hid, hnone⟩ := s.openElement_yields id level path _ o opened ds₁ hopen
    have hopened := Quiet.modular.openElement s id level _ o opened ds₁ hopen
    have hbelow : u.element.declaration = some id ∧ u.isTruncated = false ∧
        Resolved s o.absentKeys u.element.children u.held (ds₁ ++ ds₂) := by
      generalize opened.form = form at hcontent
      cases form with
      | children group isMixed =>
          obtain ⟨content, ds₄, _, hstart, hafter, rfl⟩ := ok_of_andThen hcontent
          obtain ⟨below, ds₅, ds₆, hchildren, hend, rfl⟩ := ok_of_andThen hafter
          obtain ⟨hresolved, hwhole⟩ := decodeChildren_resolved hs hmode hdepth hchildren
          obtain ⟨hdeclaration, helements, hheld, htruncated⟩ :=
            s.closeContent_yields id path _ _ content below o u ds₆ hend
          have hstarted := Quiet.modular.openContent s id _ _ _ (congrArg _)
            (fun _ _ => .ofExcept _) o content ds₄ hstart
          have hended := Quiet.modular.closeContent s id _ _ content below (.ofExcept _)
            o u ds₆ hend
          refine ⟨hdeclaration.trans hid, htruncated.trans hwhole, ?_⟩
          rw [helements, hheld, ← List.append_assoc]
          exact hresolved.quiet (by rw [List.filter_append, hopened, hstarted]; rfl) hended
      | absent | empty | text | unfulfillable =>
          obtain ⟨hdeclaration, helements, hheld, hwhole⟩ :=
            s.decodeLeaf_yields id path _ _ _ o u ds₂ hcontent
          have hquiet := Quiet.modular.decodeLeaf s id _ _ _ o u ds₂ hcontent
          refine ⟨hdeclaration.trans hid, hwhole, ?_⟩
          rw [helements, hnone, hheld]
          exact Resolved.nil.quiet hopened hquiet
    obtain ⟨hdeclaration, hwhole, hresolved⟩ := hbelow
    rw [← List.append_assoc]
    exact hresolved.close hs hmode hdepth hdeclaration hwhole hclose

theorem decodeChildren_resolved (hs : s.Built) {o : Options} (hmode : o.mode = .lax)
    (hdepth : o.maxDepth = none) :
    ∀ {level : Nat} {leaves : List (Option Member)} {paths : List String} {es : List Element}
      {below : Children} {ds : List Diagnostic},
      s.decodeChildren level leaves paths es o = .ok (below, ds) →
        Resolved s o.absentKeys below.elements below.held ds ∧ below.isTruncated = false
  | level, leaf :: leaves, path :: paths, e :: rest, below, ds, h => by
    unfold decodeChildren at h
    generalize (leaf.bind fun m => s.treatment m e.name) = treated at h
    cases treated with
    | none => exact decodeChildren_resolved hs hmode hdepth h
    | some treatment =>
      obtain ⟨_, _, _, hoptions, hrest, rfl⟩ := ok_of_andThen h
      cases hoptions
      obtain ⟨here, ds₁, _, hhere, hrest', rfl⟩ := ok_of_andThen hrest
      obtain ⟨after, ds₂, _, hafter, hdone, rfl⟩ := ok_of_andThen hrest'
      cases hdone
      obtain ⟨hmore, hmoreWhole⟩ := decodeChildren_resolved hs hmode hdepth hafter
      have hfirst : Resolved s o.absentKeys here.elements here.held ds₁ ∧
          here.isTruncated = false := by
        rw [if_neg (by simp [Options.isTooDeep, hdepth])] at hhere
        cases treatment with
        | declared id =>
            obtain ⟨t, ds₃, _, ht, hdone, rfl⟩ := ok_of_andThen hhere
            cases hdone
            rw [List.append_nil]
            exact decodeElement_resolved hs hmode hdepth ht
        | raw isMissed =>
            obtain ⟨t, ds₃, _, ht, hdone, rfl⟩ := ok_of_andThen hhere
            cases hdone
            rw [List.append_nil]
            exact keepElement_resolved ht
      rw [List.nil_append, List.append_nil]
      exact ⟨hfirst.1.append hmore, by
        show (here.isTruncated || after.isTruncated) = false
        rw [hfirst.2, hmoreWhole]
        rfl⟩
  | _, [], _, _ :: _, _, _, h => by
    cases h
    exact ⟨.nil, rfl⟩
  | _, _ :: _, [], _ :: _, _, _, h => by
    cases h
    exact ⟨.nil, rfl⟩
  | _, [], _, [], _, _, h => by
    cases h
    exact ⟨.nil, rfl⟩
  | _, _ :: _, [], [], _, _, h => by
    cases h
    exact ⟨.nil, rfl⟩
  | _, _ :: _, _ :: _, [], _, _, h => by
    cases h
    exact ⟨.nil, rfl⟩

end

/-! ## Documents -/

theorem decodeDocument_resolved (hs : s.Built) {d : Document} {o : Options} (hmode : o.mode = .lax)
    (hdepth : o.maxDepth = none) {v : Option Decoded} {ds : List Diagnostic}
    (h : s.decodeDocument d o = .ok (v, ds)) :
    ds.filter Diagnostic.isDangling = (Decoded.closingOfAll v.toList).flatMap fun n =>
      (s.constraintsOf n).flatMap (s.unresolved o.absentKeys n) := by
  -- without a declaration for the root nothing is decoded
  have hnothing : ∀ {d : Diagnostic}, d.kind ≠ .identity →
      ((Pass.report d).andThen fun _ => Pass.done none) o = .ok (v, ds) →
        ds.filter Diagnostic.isDangling = (Decoded.closingOfAll v.toList).flatMap fun n =>
          (s.constraintsOf n).flatMap (s.unresolved o.absentKeys n) := by
    intro d hd hreport
    have hparts := @Quiet.modular d.path
    have hquiet := (hparts.report ⟨hd, rfl⟩).andThen fun _ => hparts.done (none : Option Decoded)
    obtain ⟨_, _, _, -, hdone, -⟩ := ok_of_andThen hreport
    cases hdone
    exact hquiet o _ ds hreport
  unfold decodeDocument at h
  cases hroot : d.root with
  | none =>
      rw [hroot] at h
      exact hnothing (d := .error .noRoot "") nofun h
  | some root =>
      rw [hroot] at h
      dsimp only at h
      generalize s.elementNamed? root.name = declared at h
      cases declared with
      | none => exact hnothing (d := .error (.undeclaredRoot root.tag) ("/" ++ root.tag)) nofun h
      | some id =>
          obtain ⟨t, _, _, hdecode, hdone, rfl⟩ := ok_of_andThen h
          cases hdone
          rw [List.append_nil]
          exact (decodeElement_resolved hs hmode hdepth hdecode).1.dangling

end Schema

/-- Definitions with unique names, and uses of them. -/
def referenceSample : Components :=
  let c := Components.withElements .v10 [("def", ⟨0, none⟩), ("use", ⟨0, none⟩)]
  let c := c.withGroup .choice ⟨0, none⟩ [.element ⟨0⟩, .element ⟨1⟩]
  let c := (c.addLocalType (.complex (.ofContent (.elementOnly ⟨0⟩)))).2
  let c := (c.addIdentity ⟨.plain "names", .unique, "def", ["@n"], .empty⟩).2
  let c := (c.addIdentity ⟨.plain "uses", .keyref (.plain "names"), "use", ["@n"], .empty⟩).2
  (c.addGlobalElement { Declaration.simple (.plain "defs") ⟨1⟩ with identities := [⟨0⟩, ⟨1⟩] }).2

/-- A definition of `a`, and two uses of `b`. -/
def referenceDocument : Document :=
  let child (name value : String) : Element :=
    (Element.leaf (.plain name)).withAttribute (.plain "n") value
  ⟨some { Element.leaf (.plain "defs") with
    children := [child "def" "a", child "use" "b", child "use" "b"] }⟩

end Conform
