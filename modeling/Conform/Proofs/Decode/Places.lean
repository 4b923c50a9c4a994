import Conform.Proofs.Decode.Depth
import Conform.Proofs.Decode.Mirror
import Conform.Proofs.Decode.Paths
import Conform.Proofs.Decode.References
import Conform.Proofs.Identity.Places
/-!
# Places of decoded elements

A decoded element has the path of an element of the document, and elements come in the order of the
document. What is reported is reported at the path of a decoded element. So where paths tell the
elements of a document apart, a diagnostic points at one element.
-/

namespace Conform

/-! ## Reports at a path -/

namespace Pass

variable {α β : Type} {path : String}

/-- All that is reported is reported at a path. -/
def ReportsAt (path : String) (p : Pass α) : Prop :=
  p.ReportsOnly fun d => d.path = path

/-- Every part of a pass over an element reports at the path of the element. -/
theorem ReportsAt.modular : Modular Eq path (fun p => p.ReportsAt path) where
  usesDefaults := congrArg _
  done := ReportsOnly.done
  ofExcept _ := ReportsOnly.ofExcept _
  report hd := ReportsOnly.report hd.path_eq
  andThen := ReportsOnly.andThen
  withOptions _ hf := ReportsOnly.options.andThen hf

end Pass

/-! ## Decoded elements in their places -/

/-- Decoded elements are among elements with paths, in their order, and what is reported is
reported at their paths. -/
structure IsPlaced (nodes : List Decoded) (places : List (String × Element))
    (ds : List Diagnostic) : Prop where
  sublist : (nodes.map fun n => (n.path, n.tag)).Sublist (places.map fun x => (x.1, x.2.name))
  reported : ∀ d ∈ ds, ∃ n ∈ nodes, n.path = d.path

namespace IsPlaced

variable {nodes nodes' : List Decoded} {places places' : List (String × Element)}
  {ds ds' : List Diagnostic}

theorem nil (places : List (String × Element)) : IsPlaced [] places [] where
  sublist := List.nil_sublist _
  reported := List.forall_mem_nil _

theorem append (h : IsPlaced nodes places ds) (h' : IsPlaced nodes' places' ds') :
    IsPlaced (nodes ++ nodes') (places ++ places') (ds ++ ds') where
  sublist := by
    rw [List.map_append, List.map_append]
    exact h.sublist.append h'.sublist
  reported d hd := by
    rcases List.mem_append.1 hd with hd | hd
    · obtain ⟨n, hn, hpath⟩ := h.reported d hd
      exact ⟨n, List.mem_append_left _ hn, hpath⟩
    · obtain ⟨n, hn, hpath⟩ := h'.reported d hd
      exact ⟨n, List.mem_append_right _ hn, hpath⟩

/-- An element is left out with all that is below it. -/
theorem skip (h : IsPlaced nodes places ds) (before : List (String × Element)) :
    IsPlaced nodes (before ++ places) ds := (nil before).append h

end IsPlaced

theorem Decoded.nodes_eq (d : Decoded) : d.nodes = d :: nodesOfAll d.children := by
  cases d
  rw [nodes]

/-- An element is in its place above its children, with more reports at paths in its tree. -/
theorem IsPlaced.under {d : Decoded} {path : String} {e : Element} {ds more : List Diagnostic}
    (h : IsPlaced (Decoded.nodesOfAll d.children)
      (Element.placedAll (e.childPaths path) e.children) ds)
    (htag : d.tag = e.name) (hpath : d.path = path)
    (hmore : ∀ x ∈ more, x ∈ ds ∨ d.HasPath x.path) : IsPlaced d.nodes (e.placed path) more where
  sublist := by
    rw [d.nodes_eq, Element.placed_eq, List.map_cons, List.map_cons, htag, hpath]
    exact h.sublist.cons_cons _
  reported x hx := by
    rcases hmore x hx with hx | hx
    · obtain ⟨n, hn, hn'⟩ := h.reported x hx
      exact ⟨n, d.nodes_eq ▸ List.mem_cons_of_mem _ hn, hn'⟩
    · exact hx

mutual

theorem decodeRaw_placed {limits : Limits} {o : Options} : ∀ {level : Nat} {path : String}
    {e : Element} {d : Decoded}, decodeRaw limits o level path e = .ok d →
      d.path = path ∧ IsPlaced d.nodes (e.placed path) []
  | level, path, ⟨name, attributes, text, tail, children, scope⟩, d, h => by
    unfold decodeRaw at h
    split at h
    · cases h
    dsimp only at h
    split at h
    · cases h
      exact ⟨rfl, IsPlaced.under (.nil _) rfl rfl (List.forall_mem_nil _)⟩
    split at h
    · cases h
    rename_i below hbelow
    cases h
    exact ⟨rfl, IsPlaced.under (decodeRawAll_placed hbelow) rfl rfl (List.forall_mem_nil _)⟩

theorem decodeRawAll_placed {limits : Limits} {o : Options} : ∀ {level : Nat}
    {paths : List String} {es : List Element} {ds : List Decoded},
      decodeRawAll limits o level paths es = .ok ds →
        IsPlaced (Decoded.nodesOfAll ds) (Element.placedAll paths es) []
  | level, path :: paths, e :: rest, ds, h => by
    unfold decodeRawAll at h
    split at h
    · cases h
    rename_i decoded hdecoded
    split at h
    · cases h
    rename_i more hmore
    cases h
    exact (decodeRaw_placed hdecoded).2.append (decodeRawAll_placed hmore)
  | _, [], _ :: _, _, h => by
    cases h
    exact .nil _
  | _, [], [], _, h => by
    cases h
    exact .nil _
  | _, _ :: _, [], _, h => by
    cases h
    exact .nil _

end

namespace Schema

open Pass

variable {s : Schema} {o : Options}

theorem keepElement_placed {isMissed : Bool} {level : Nat} {path : String} {e : Element}
    {t : Subtree} {ds : List Diagnostic}
    (h : s.keepElement isMissed level path e o = .ok (t, ds)) :
    IsPlaced t.element.nodes (e.placed path) ds := by
  have hreported := ReportsAt.modular.keepElement (congrArg _) s isMissed level e o t ds h
  unfold keepElement at h
  obtain ⟨_, _, _, -, hrest, -⟩ := ok_of_andThen h
  obtain ⟨_, _, _, -, hkept, -⟩ := ok_of_andThen hrest
  obtain ⟨d, _, _, hraw, hdone, -⟩ := ok_of_andThen hkept
  cases hdone
  obtain ⟨hpath, hplaced⟩ := decodeRaw_placed (ok_of_ofExcept hraw).1
  refine ⟨hplaced.sublist, fun x hx => ⟨d, d.mem_nodes_self, ?_⟩⟩
  rw [hpath, hreported x hx]

/-- The check of identity constraints reports at paths in the tree of the element. -/
theorem closeElement_reports {id : ElementId} {t u : Subtree} {ds : List Diagnostic}
    (h : s.closeElement id t o = .ok (u, ds)) : ∀ x ∈ ds, t.element.HasPath x.path := by
  intro x hx
  unfold closeElement at h
  simp only [bind_eq_andThen, options_andThen] at h
  split at h
  · cases h
    cases hx
  · obtain ⟨_, _, _, hreport, hdone, rfl⟩ := ok_of_andThen h
    cases hdone
    rw [List.append_nil] at hx
    obtain ⟨d, hd, rfl⟩ := List.mem_map.1 (mem_of_reportAll hreport hx)
    exact hasPath_checkScope (d := d) hd

/-- If what is decoded of the children is in place, then what is decoded of the content is. -/
theorem contentOf_placed {id : ElementId} {level : Nat} {path : String} {e : Element}
    {opened : Opened} {u : Subtree} {ds : List Diagnostic}
    (h : s.contentOf id level path e opened o = .ok (u, ds))
    (hnone : opened.decoded.children = [])
    (hchildren : ∀ {leaves : List (Option Member)} {below : Children} {more : List Diagnostic},
      s.decodeChildren (level + 1) leaves (e.childPaths path) e.children o = .ok (below, more) →
        IsPlaced (Decoded.nodesOfAll below.elements)
          (Element.placedAll (e.childPaths path) e.children) more) :
    ∃ below, IsPlaced (Decoded.nodesOfAll u.element.children)
        (Element.placedAll (e.childPaths path) e.children) below ∧
      ∀ x ∈ ds, x ∈ below ∨ x.path = path := by
  unfold contentOf at h
  cases hform : opened.form with
  | children group isMixed =>
      simp only [hform] at h
      obtain ⟨content, ds₁, _, hstart, hafter, rfl⟩ := ok_of_andThen h
      obtain ⟨below, ds₂, ds₃, hbelow, hend, rfl⟩ := ok_of_andThen hafter
      have hkept := (closeContent_yields id path _ _ content below _ _ _ hend).2.1
      have hstarted := ReportsAt.modular.openContent s id group isMixed _ (congrArg _)
        (fun _ _ => ReportsOnly.ofExcept _) o content ds₁ hstart
      have hended := ReportsAt.modular.closeContent s id _ opened.decoded content below
        (ReportsOnly.ofExcept _) o u ds₃ hend
      refine ⟨ds₂, by rw [hkept]; exact hchildren hbelow, fun x hx => ?_⟩
      rcases List.mem_append.1 hx with hx | hx
      · exact .inr (hstarted x hx)
      · exact (List.mem_append.1 hx).imp_right (hended x)
  | absent | empty | text | unfulfillable =>
      simp only [hform] at h
      have hkept := (decodeLeaf_yields id path _ _ _ _ _ _ h).2.1
      have hreported := ReportsAt.modular.decodeLeaf s id _ opened.decoded _ o u ds h
      rw [hkept, hnone]
      exact ⟨[], .nil _, fun x hx => .inr (hreported x hx)⟩

mutual

theorem decodeElement_placed : ∀ {id : ElementId} {level : Nat} {path : String} {e : Element}
    {t : Subtree} {ds : List Diagnostic}, s.decodeElement id level path e o = .ok (t, ds) →
      IsPlaced t.element.nodes (e.placed path) ds
  | id, level, path, ⟨name, attributes, text, tail, children, scope⟩, t, ds, h => by
    rw [decodeElement_eq] at h
    obtain ⟨opened, ds₁, _, hopen, hrest, rfl⟩ := ok_of_andThen h
    obtain ⟨u, ds₂, ds₃, hcontent, hclose, rfl⟩ := ok_of_andThen hrest
    have helement : t.element = u.element := closeElement_yields id u _ _ _ hclose
    obtain ⟨_, _, _, -, -, -, hdecoded, -⟩ := openElement_ok hopen
    obtain ⟨htag, hpath, -, -⟩ := contentOf_yields id level path _ opened _ _ _ hcontent
    rw [hdecoded] at htag hpath
    have hopened := ReportsAt.modular.openElement s id level _ o opened ds₁ hopen
    have hclosed := closeElement_reports hclose
    have hself : u.element.HasPath path := ⟨_, u.element.mem_nodes_self, hpath⟩
    obtain ⟨below, hplaced, hreported⟩ := contentOf_placed hcontent
      (openElement_yields id level path _ _ _ _ hopen).2 decodeChildren_placed
    rw [helement]
    refine hplaced.under htag hpath fun x hx => ?_
    rcases List.mem_append.1 hx with hx | hx
    · exact .inr (hopened x hx ▸ hself)
    · rcases List.mem_append.1 hx with hx | hx
      · exact (hreported x hx).imp_right fun (hx : x.path = path) => hx ▸ hself
      · exact .inr (hclosed x hx)

theorem decodeChildren_placed : ∀ {level : Nat} {leaves : List (Option Member)}
    {paths : List String} {es : List Element} {below : Children} {ds : List Diagnostic},
      s.decodeChildren level leaves paths es o = .ok (below, ds) →
        IsPlaced (Decoded.nodesOfAll below.elements) (Element.placedAll paths es) ds
  | level, leaf :: leaves, path :: paths, e :: rest, below, ds, h => by
    unfold decodeChildren at h
    generalize (leaf.bind fun m => s.treatment m e.name) = treated at h
    rw [Element.placedAll]
    cases treated with
    | none => exact (decodeChildren_placed h).skip _
    | some treatment =>
        obtain ⟨_, _, _, hoptions, hrest, rfl⟩ := ok_of_andThen h
        cases hoptions
        obtain ⟨here, ds₁, _, hhere, hafter, rfl⟩ := ok_of_andThen hrest
        obtain ⟨after, ds₂, _, hmore, hdone, rfl⟩ := ok_of_andThen hafter
        cases hdone
        have hfirst : IsPlaced (Decoded.nodesOfAll here.elements) (e.placed path) ds₁ := by
          split at hhere
          · cases hhere
            exact .nil _
          · cases treatment with
            | declared id =>
                obtain ⟨t, ds₃, _, ht, hdone, rfl⟩ := ok_of_andThen hhere
                cases hdone
                simpa [Children.ofSubtree, Decoded.nodesOfAll] using decodeElement_placed ht
            | raw isMissed =>
                obtain ⟨t, ds₃, _, ht, hdone, rfl⟩ := ok_of_andThen hhere
                cases hdone
                simpa [Children.ofSubtree, Decoded.nodesOfAll] using keepElement_placed ht
        have hnodes : Decoded.nodesOfAll (here ++ after).elements =
            Decoded.nodesOfAll here.elements ++ Decoded.nodesOfAll after.elements :=
          Decoded.nodesOfAll_append ..
        rw [hnodes, List.nil_append, List.append_nil]
        exact hfirst.append (decodeChildren_placed hmore)
  | _, [], _, _ :: _, _, _, h => by
    cases h
    exact .nil _
  | _, _ :: _, [], _ :: _, _, _, h => by
    cases h
    exact .nil _
  | _, [], _, [], _, _, h => by
    cases h
    exact .nil _
  | _, _ :: _, [], [], _, _, h => by
    cases h
    exact .nil _
  | _, _ :: _, _ :: _, [], _, _, h => by
    cases h
    exact .nil _

end

/-! ## Documents -/

theorem decode_placed {d : Document} {root : Element} {v : Decoded} {ds : List Diagnostic}
    (hroot : d.root = some root) (h : s.decode d o = .ok (some v, ds)) :
    IsPlaced v.nodes (root.placed ("/" ++ root.tag)) ds := by
  unfold decode decodeDocument at h
  simp only [hroot] at h
  cases hid : s.elementNamed? root.name with
  | none =>
      simp only [hid] at h
      obtain ⟨_, _, _, -, hdone, -⟩ := ok_of_andThen h
      cases hdone
  | some id =>
      simp only [hid] at h
      obtain ⟨t, ds₁, _, ht, hdone, rfl⟩ := ok_of_andThen h
      cases hdone
      rw [List.append_nil]
      exact decodeElement_placed ht

/-- Under a lax pass the elements of a text are decoded at these paths, and diagnostics are reported
at those. -/
def HasPaths (s : Schema) (text : String) (paths reported : List String) : Prop :=
  ∃ d v ds, Document.ofText text = .ok d ∧ s.decode d (.ofMode .lax) = .ok (some v, ds) ∧
    v.nodes.map (·.path) = paths ∧ ds.map (·.path) = reported

/-- The paths of the decoded elements of a text and of its diagnostics. -/
def pathsOf? (s : Schema) (text : String) : Option (List String × List String) := do
  let d ← (Document.ofText text).toOption
  let (v, ds) ← (s.decode d (.ofMode .lax)).toOption
  return ((← v).nodes.map (·.path), ds.map (·.path))

theorem hasPaths_of_pathsOf? {s : Schema} {text : String} {paths reported : List String}
    (h : s.pathsOf? text = some (paths, reported)) : s.HasPaths text paths reported := by
  obtain ⟨d, hd, h⟩ := Option.bind_eq_some_iff.1 h
  obtain ⟨⟨v, ds⟩, hv, h⟩ := Option.bind_eq_some_iff.1 h
  obtain ⟨v, rfl, h⟩ := Option.bind_eq_some_iff.1 h
  obtain ⟨rfl, rfl⟩ := Prod.mk.inj (Option.some.inj h)
  refine ⟨d, v, ds, ?_, ?_, rfl, rfl⟩
  · cases htext : Document.ofText text with
    | error f => rw [htext] at hd; cases hd
    | ok d' => rw [htext] at hd; cases hd; rfl
  · cases hdecode : s.decode d (.ofMode .lax) with
    | error f => rw [hdecode] at hv; cases hv
    | ok r => rw [hdecode] at hv; cases hv; rfl

end Schema

end Conform
