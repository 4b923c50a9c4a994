import Conform.Proofs.Decode.Failures
import Conform.Proofs.Decode.Places
import Conform.Proofs.Decode.Skipping
import Conform.Proofs.Name.Rendering
/-!
# Tags on the paths of diagnostics

A path leads from the root down to an element by the tags of the elements on it. A tag is the name
of its element as the scope of the element writes it. So the steps of a path are read back as the
names of the elements that they lead to, but for elements without a namespace in the scope of a
default one.
-/

namespace Conform

namespace Element

/-! ## Steps of a path -/

/-- The path from the root down to an element, with the elements on it, innermost first. Every step
is the tag of an element, with its position if other children of its parent have its name. -/
inductive Leads (root : Element) : String → List Element → Prop
  | start : Leads root ("/" ++ root.tag) [root]
  | step {path : String} {e c : Element} {outer : List Element} {n : Nat} :
    Leads root path (e :: outer) → c ∈ e.children →
      Leads root (path ++ "/" ++ c.segment (e.children.map (·.name)) n) (c :: e :: outer)

variable {root : Element}

/-- A child is at its own path among those of the children. -/
theorem mem_zip_childPathsFrom {path : String} {all : List QName} {x : Element × String} :
    ∀ {before : List QName} {es : List Element}, x ∈ es.zip (childPathsFrom path all before es) →
      x.1 ∈ es ∧ ∃ n, x.2 = path ++ "/" ++ x.1.segment all n
  | _, [], h => by cases h
  | before, c :: rest, h => by
    rw [childPathsFrom, List.zip_cons_cons] at h
    rcases List.mem_cons.1 h with rfl | h
    · exact ⟨List.mem_cons_self, _, String.append_assoc⟩
    · obtain ⟨hmem, hn⟩ := mem_zip_childPathsFrom h
      exact ⟨List.mem_cons_of_mem _ hmem, hn⟩

mutual

/-- Below an element to which a path leads, paths lead to all elements. -/
theorem Leads.placed : ∀ {path : String} {e : Element} {outer : List Element}
    {x : String × Element}, Leads root path (e :: outer) → x ∈ e.placed path →
      ∃ around, Leads root x.1 (x.2 :: around)
  | path, ⟨name, attributes, text, tail, children, scope⟩, outer, x, h, hx => by
    rw [Element.placed] at hx
    rcases List.mem_cons.1 hx with rfl | hx
    · exact ⟨outer, h⟩
    · refine leads_placedAll (fun y hy => ?_) hx
      obtain ⟨hchild, n, hpath⟩ := mem_zip_childPathsFrom hy
      exact ⟨_, hpath ▸ h.step hchild⟩

theorem leads_placedAll : ∀ {paths : List String} {es : List Element} {x : String × Element},
    (∀ y ∈ es.zip paths, ∃ around, Leads root y.2 (y.1 :: around)) → x ∈ placedAll paths es →
      ∃ around, Leads root x.1 (x.2 :: around)
  | path :: paths, e :: rest, x, h, hx => by
    rw [placedAll] at hx
    rcases List.mem_append.1 hx with hx | hx
    · obtain ⟨_, hfirst⟩ := h (e, path) List.mem_cons_self
      exact hfirst.placed hx
    · exact leads_placedAll (fun y hy => h y (List.mem_cons_of_mem _ hy)) hx
  | [], _, _, _, hx => by simp [placedAll] at hx
  | _ :: _, [], _, _, hx => by simp [placedAll] at hx

end

end Element

/-! ## Tags with names -/

namespace Markup

/-- The names that a tag uses and the prefixes that it binds are names of documents. -/
def Tag.HasNames (tag : Tag) : Prop :=
  (∀ written ∈ Text.ofOctets? tag.name, IsWritten written) ∧
    ∀ attributes ∈ tag.attributes.toOption, ∀ a ∈ attributes, ∀ label ∈ boundPrefix? a.1,
      IsName label

instance (tag : Tag) : Decidable tag.HasNames := inferInstanceAs (Decidable (_ ∧ _))

/-- The tag of an element that begins has names. -/
def Mark.HasNames : Mark → Prop
  | .opening tag => tag.HasNames
  | .closing => True

instance : DecidablePred Mark.HasNames
  | .opening tag => inferInstanceAs (Decidable tag.HasNames)
  | .closing => inferInstanceAs (Decidable True)

/-- The scope of an element is made by declarations, and its name is one that is written there. -/
structure Head.IsNamed (head : Head) : Prop where
  scope : head.scope.Declared
  name : ∃ written, IsWritten written ∧ head.scope.resolve written = .ok head.name

/-- If its tag and the tags around it have names, then an element is named. -/
def Names (tag : Tag) (outer : List Tag) (head : Head) : Prop :=
  (∀ t ∈ tag :: outer, t.HasNames) → head.IsNamed

theorem declared_declare {scope : Scope} (h : scope.Declared) {a : String × String}
    (ha : ∀ label ∈ boundPrefix? a.1, IsName label) : (declare scope a).Declared := by
  unfold declare
  split
  · exact h.withDefault _
  · split
    · rename_i label hlabel
      exact h.bind (ha label hlabel) _
    · exact h

theorem declared_foldl_declare {attributes : List (String × String)} {scope : Scope}
    (h : scope.Declared) (hnames : ∀ a ∈ attributes, ∀ label ∈ boundPrefix? a.1, IsName label) :
    (attributes.foldl declare scope).Declared := by
  induction attributes generalizing scope with
  | nil => exact h
  | cons a rest ih =>
      exact ih (declared_declare h (hnames a List.mem_cons_self))
        fun b hb => hnames b (List.mem_cons_of_mem _ hb)

theorem declared_baseScope : Building.baseScope.Declared := .bind .empty (by decide) _

theorem Around.declared {outer : List Tag} {scope : Scope} (h : Around Names outer scope)
    (hnames : ∀ t ∈ outer, t.HasNames) : scope.Declared := by
  cases h with
  | outside => exact declared_baseScope
  | inside hnamed => exact (hnamed hnames).scope

theorem settles_names : Settles Names := by
  intro tag outer scope e haround h hnames
  obtain ⟨attributes, written, hattributes, hwritten, hscope, hname, -⟩ := Tag.element_eq_ok h
  obtain ⟨htag, houter⟩ := List.forall_mem_cons.1 hnames
  refine ⟨?_, written, htag.1 written hwritten, hname⟩
  show e.scope.Declared
  rw [hscope]
  exact declared_foldl_declare (haround.declared houter)
    (htag.2 attributes (by rw [hattributes]; rfl))

theorem TagTree.exists_of_describesAll {P : Tag → List Tag → Head → Prop} {outer : List Tag}
    {c : Element} : ∀ {ts : List TagTree} {es : List Element},
    TagTree.DescribesAll P outer ts es → c ∈ es →
      ∃ t : TagTree, t.Describes P outer c ∧ ∀ m ∈ t.marks, m ∈ TagTree.marksOfAll ts
  | [], [], _, hc => by cases hc
  | t :: ts, e :: es, h, hc => by
    rcases List.mem_cons.1 hc with rfl | hc
    · exact ⟨t, h.1, fun m hm => List.mem_append_left _ hm⟩
    · obtain ⟨t', ht', hmarks⟩ := exists_of_describesAll h.2 hc
      exact ⟨t', ht', fun m hm => List.mem_append_right _ (hmarks m hm)⟩
  | [], _ :: _, h, _ => h.elim
  | _ :: _, [], h, _ => h.elim

/-- An element is described by a tree of tags that have names, inside tags that have names. -/
def IsTagged (e : Element) : Prop :=
  ∃ (tree : TagTree) (outer : List Tag), tree.Describes Names outer e ∧
    (∀ tag ∈ outer, tag.HasNames) ∧ ∀ m ∈ tree.marks, m.HasNames

variable {e c : Element}

theorem IsTagged.named (h : IsTagged e) : e.head.IsNamed := by
  obtain ⟨⟨tag, inner⟩, outer, hdescribes, houter, hinner⟩ := h
  exact hdescribes.1 (List.forall_mem_cons.2 ⟨hinner (.opening tag) List.mem_cons_self, houter⟩)

theorem IsTagged.child (h : IsTagged e) (hc : c ∈ e.children) : IsTagged c := by
  obtain ⟨⟨tag, inner⟩, outer, hdescribes, houter, hinner⟩ := h
  obtain ⟨tree, htree, hmarks⟩ := TagTree.exists_of_describesAll hdescribes.2 hc
  refine ⟨tree, tag :: outer, htree, ?_, fun m hm => hinner m ?_⟩
  · exact List.forall_mem_cons.2 ⟨hinner (.opening tag) List.mem_cons_self, houter⟩
  · exact List.mem_cons_of_mem _ (List.mem_append_left _ (hmarks m hm))

theorem IsTagged.line {path : String} {line : List Element} (h : IsTagged e)
    (hline : e.Leads path line) : ∀ e' ∈ line, IsTagged e' := by
  induction hline with
  | start => simpa using h
  | step _ hc ih => exact List.forall_mem_cons.2 ⟨(ih _ List.mem_cons_self).child hc, ih⟩

/-- The tag of a named element is read back as its name just if it is in a namespace or there is no
default one. -/
theorem Head.IsNamed.resolve_tag_iff (h : e.head.IsNamed) :
    e.scope.resolve e.tag = .ok e.name ↔ e.name.space ≠ "" ∨ e.scope.defaultSpace = "" := by
  obtain ⟨written, hwritten, hname⟩ := h.name
  exact h.scope.resolve_write_iff hwritten hname

end Markup

/-! ## Diagnostics that end a pass -/

namespace Pass

variable {α β : Type} {path : String} {places : List String} {o : Options}

/-- A diagnostic that ends the pass is at one of some places. -/
def BlamesIn (places : List String) (o : Options) (p : Pass α) : Prop :=
  p.FailsAs o fun f => ∀ x, f = .invalid x → x.path ∈ places

namespace BlamesIn

theorem ofExcept {e : Except Failure α} (h : Blameless e) :
    (Pass.ofExcept e).BlamesIn places o :=
  FailsAs.ofExcept fun _ hf x hx => absurd (hf.trans (congrArg _ hx)) (h x)

theorem report {d : Diagnostic} (h : d.path ∈ places) : (Pass.report d).BlamesIn places o := by
  intro f hf x hx
  subst hx
  unfold Pass.report Mode.keep at hf
  split at hf
  · split at hf <;> cases hf
    exact h
  · cases hf
  · cases hf

theorem reportAll : ∀ {ds : List Diagnostic}, (∀ d ∈ ds, d.path ∈ places) →
    (Pass.reportAll ds).BlamesIn places o
  | [], _ => FailsAs.done ()
  | d :: _, h => FailsAs.andThen (report (h d List.mem_cons_self)) fun _ _ _ =>
      reportAll fun d' hd' => h d' (List.mem_cons_of_mem _ hd')

/-- Every part of a pass over an element blames the path of the element. -/
theorem modular (h : path ∈ places) : Modular Eq path (fun p => ∀ o, p.BlamesIn places o) where
  usesDefaults := congrArg _
  done a _ := FailsAs.done a
  ofExcept he _ := ofExcept he
  report hd _ := report (hd.path_eq ▸ h)
  andThen hp hf o := FailsAs.andThen (hp o) fun a _ _ => hf a o
  withOptions _ hf o := FailsAs.options.andThen fun a _ _ => hf a o

end BlamesIn

end Pass

namespace Schema

open Pass

variable {s : Schema} {o : Options}

/-- The check of identity constraints blames elements of the tree. -/
theorem closeElement_blames {id : ElementId} {t : Subtree} {places : List String}
    (h : ∀ n ∈ t.element.nodes, n.path ∈ places) : (s.closeElement id t).BlamesIn places o := by
  unfold closeElement
  refine FailsAs.options.andThen fun _ _ _ => ?_
  split
  · exact FailsAs.done _
  · refine FailsAs.andThen (BlamesIn.reportAll fun d hd => ?_) fun _ _ _ => FailsAs.done _
    obtain ⟨d', hd', rfl⟩ := List.mem_map.1 hd
    obtain ⟨n, hn, hpath⟩ := hasPath_checkScope hd'
    exact hpath ▸ h n hn

mutual

/-- A diagnostic that ends a pass over an element is at the path of an element of its tree. -/
theorem decodeElement_blames : ∀ (id : ElementId) (level : Nat) (path : String) (e : Element),
    (s.decodeElement id level path e).BlamesIn ((e.placed path).map Prod.fst) o
  | id, level, path, ⟨name, attributes, text, tail, children, scope⟩ => by
    rw [decodeElement_eq]
    generalize he : (⟨name, attributes, text, tail, children, scope⟩ : Element) = e
    obtain rfl : children = e.children := by rw [← he]
    have hself : path ∈ (e.placed path).map Prod.fst := by simp [Element.placed_eq]
    have hbelow : ∀ p ∈ (Element.placedAll (e.childPaths path) e.children).map Prod.fst,
        p ∈ (e.placed path).map Prod.fst := by
      rw [Element.placed_eq]
      exact fun p hp => List.mem_cons_of_mem _ hp
    have hparts := BlamesIn.modular hself
    refine (hparts.openElement s id level e o).andThen fun opened _ hopen => ?_
    refine FailsAs.andThen ?_ fun u _ hcontent => closeElement_blames fun n hn => ?_
    · unfold contentOf
      split
      · refine (hparts.openContent s id _ _ e (congrArg _)
          (fun o' names _ => .ofExcept (blameless_attributionIn o' _ names)) o).andThen
            fun content _ hcontent => ?_
        refine FailsAs.andThen ?_ fun below _ _ => hparts.closeContent s id e _ content below
          (fun _ => .ofExcept (blameless_issues (openContent_ok hcontent).1)) o
        exact (decodeChildren_blames (level + 1) content.attribution.leaves (e.childPaths path)
          e.children).imp fun f hf x hx => hbelow _ (hf x hx)
      · exact hparts.decodeLeaf s id e _ _ o
    · obtain ⟨_, hplaced, -⟩ := contentOf_placed hcontent
        (openElement_yields id level path e _ _ _ hopen).2 decodeChildren_placed
      obtain ⟨_, _, _, -, -, -, hdecoded, -⟩ := openElement_ok hopen
      obtain ⟨htag, hpath, -, -⟩ := contentOf_yields id level path e opened _ _ _ hcontent
      rw [hdecoded] at htag hpath
      have hsublist := (hplaced.under htag hpath (List.forall_mem_nil _)).sublist.map Prod.fst
      rw [List.map_map, List.map_map] at hsublist
      exact hsublist.subset (List.mem_map_of_mem hn)

theorem decodeChildren_blames : ∀ (level : Nat) (leaves : List (Option Member))
    (paths : List String) (es : List Element), (s.decodeChildren level leaves paths es).BlamesIn
      ((Element.placedAll paths es).map Prod.fst) o
  | level, leaf :: leaves, path :: paths, e :: rest => by
    have hrest := (decodeChildren_blames level leaves paths rest).imp fun f hf x hx =>
      List.mem_append_right ((e.placed path).map Prod.fst) (hf x hx)
    rw [Element.placedAll, List.map_append]
    unfold decodeChildren
    split
    · exact hrest
    · rename_i treatment _
      refine FailsAs.options.andThen fun _ _ _ => FailsAs.andThen ?_ fun _ _ _ =>
        hrest.andThen fun _ _ _ => FailsAs.done _
      have hself : path ∈ (e.placed path).map Prod.fst := by simp [Element.placed_eq]
      split
      · exact FailsAs.done _
      · cases treatment with
        | declared id =>
            exact ((decodeElement_blames id level path e).imp fun f hf x hx =>
              List.mem_append_left _ (hf x hx)).map _
        | raw isMissed =>
            exact (((BlamesIn.modular hself).keepElement (congrArg _) s isMissed level e o).imp
              fun f hf x hx => List.mem_append_left _ (hf x hx)).map _
  | _, [], _, _ :: _ => FailsAs.done _
  | _, _ :: _, [], _ :: _ => FailsAs.done _
  | _, [], _, [] => FailsAs.done _
  | _, _ :: _, [], [] => FailsAs.done _
  | _, _ :: _, _ :: _, [] => FailsAs.done _

end

/-- A pass over a document reports a diagnostic or ends with it. -/
def Reports (s : Schema) (d : Document) (o : Options) (x : Diagnostic) : Prop :=
  (∃ v ds, s.decode d o = .ok (v, ds) ∧ x ∈ ds) ∨ s.decode d o = .error (.invalid x)

/-- Diagnostics are at paths of elements of the document. -/
theorem Reports.placed {d : Document} {root : Element} {x : Diagnostic} (h : s.Reports d o x)
    (hroot : d.root = some root) :
    ∃ e, (x.path, e) ∈ root.placed ("/" ++ root.tag) := by
  suffices hplaces : x.path ∈ (root.placed ("/" ++ root.tag)).map Prod.fst by
    obtain ⟨⟨_, e⟩, he, rfl⟩ := List.mem_map.1 hplaces
    exact ⟨e, he⟩
  have hself : "/" ++ root.tag ∈ (root.placed ("/" ++ root.tag)).map Prod.fst := by
    simp [Element.placed_eq]
  rcases h with ⟨v, ds, hdecode, hx⟩ | hdecode
  · cases v with
    | some v =>
        have hplaced := decode_placed hroot hdecode
        obtain ⟨n, hn, hpath⟩ := hplaced.reported x hx
        have hsublist := hplaced.sublist.map Prod.fst
        rw [List.map_map, List.map_map] at hsublist
        exact hpath ▸ hsublist.subset (List.mem_map_of_mem hn)
    | none =>
        unfold decode decodeDocument at hdecode
        simp only [hroot] at hdecode
        cases hid : s.elementNamed? root.name with
        | none =>
            simp only [hid] at hdecode
            obtain ⟨_, _, _, hreport, hdone, rfl⟩ := ok_of_andThen hdecode
            cases hdone
            rw [List.append_nil] at hx
            rw [mem_of_report hreport hx]
            exact hself
        | some id =>
            simp only [hid] at hdecode
            obtain ⟨_, _, _, -, hdone, -⟩ := ok_of_andThen hdecode
            cases hdone
  · have hblames : (s.decodeDocument d).BlamesIn
        ((root.placed ("/" ++ root.tag)).map Prod.fst) o := by
      unfold decodeDocument
      simp only [hroot]
      split
      · exact FailsAs.andThen (BlamesIn.report hself) fun _ _ _ => FailsAs.done _
      · exact (decodeElement_blames _ 0 _ root).andThen fun _ _ _ => FailsAs.done _
    exact hblames _ hdecode x rfl

end Schema

/-! ## Tags as names -/

open Markup in
/-- A name that was read in a scope made by declarations is written there so that it is read back,
if it is in a namespace or there is no default one; otherwise it is read back in the default
namespace. So it is with the tags on the path of a diagnostic, in the scopes of their elements. -/
theorem tags_resolve (s : Schema) (o : Options) :
    (∀ {scope : Scope} {written : String} {n : QName}, scope.Declared → IsWritten written →
      scope.resolve written = .ok n →
        (scope.resolve (scope.write n) = .ok n ↔ n.space ≠ "" ∨ scope.defaultSpace = "") ∧
        (n.space = "" → scope.resolve (scope.write n) = .ok ⟨scope.defaultSpace, n.base⟩)) ∧
    ∀ {bytes : List UInt8} {d : Document}, Document.parse bytes = .ok d →
      (∀ m ∈ marks 0 (scan bytes).events, m.HasNames) →
        ∃ root, d.root = some root ∧ ∀ x, s.Reports d o x →
          ∃ e outer, root.Leads x.path (e :: outer) ∧ ∀ e' ∈ e :: outer,
            (e'.scope.resolve e'.tag = .ok e'.name ↔
              e'.name.space ≠ "" ∨ e'.scope.defaultSpace = "") := by
  constructor
  · intro scope written n hscope hwritten h
    refine ⟨hscope.resolve_write_iff hwritten h, fun hnone => ?_⟩
    rw [hscope.resolve_write hwritten h, if_pos hnone]
  · intro bytes d hparse hnames
    obtain ⟨root, tree, hroot, hmarks, hdescribes⟩ :=
      Document.describes_of_ofReading settles_names hparse
    refine ⟨root, hroot, fun x hx => ?_⟩
    obtain ⟨e, hplaced⟩ := hx.placed hroot
    obtain ⟨outer, hleads⟩ := Element.Leads.start.placed hplaced
    have htagged : IsTagged root :=
      ⟨tree, [], hdescribes, List.forall_mem_nil _, hmarks ▸ hnames⟩
    exact ⟨e, outer, hleads, fun e' he' => (htagged.line hleads e' he').named.resolve_tag_iff⟩

open Markup in
/-- A name with a prefix beside a default namespace, and a diagnostic of a document with a prefix:
the document binds a prefix, so its tags have names. -/
theorem tags_resolve_sample :
    (((Scope.empty.withDefault "u").bind "p" "v").resolve
        (((Scope.empty.withDefault "u").bind "p" "v").write ⟨"v", "a"⟩) = .ok ⟨"v", "a"⟩) ∧
    ∃ d root x e outer,
      Document.parse (Text.octets "<root xmlns:p=\"w\"><item/><p:item/><item/></root>") = .ok d ∧
        d.root = some root ∧ clippingSample.schema.Reports d (.ofMode .lax) x ∧
        root.Leads x.path (e :: outer) ∧ ∀ e' ∈ e :: outer,
          (e'.scope.resolve e'.tag = .ok e'.name ↔
            e'.name.space ≠ "" ∨ e'.scope.defaultSpace = "") := by
  have hscope : ((Scope.empty.withDefault "u").bind "p" "v").Declared :=
    (Scope.Declared.empty.withDefault _).bind (by decide) _
  have hwritten : IsWritten "p:a" := by decide
  have hread : ((Scope.empty.withDefault "u").bind "p" "v").resolve "p:a" = .ok ⟨"v", "a"⟩ := by
    decide
  obtain ⟨hwritten_back, htags_back⟩ := tags_resolve clippingSample.schema (.ofMode .lax)
  have hname := hwritten_back hscope hwritten hread
  refine ⟨hname.1.2 (.inl (by decide)), ?_⟩
  have hpaths : clippingSample.schema.HasPaths
      "<root xmlns:p=\"w\"><item/><p:item/><item/></root>"
      ["/root", "/root/item[1]", "/root/p:item", "/root/item[2]"]
      ["/root/item[1]", "/root/item[2]"] := Schema.hasPaths_of_pathsOf? (by decide +kernel)
  have hnames : ∀ m ∈ marks 0 (scan (Text.octets
      "<root xmlns:p=\"w\"><item/><p:item/><item/></root>")).events, m.HasNames := by
    decide +kernel
  obtain ⟨d, v, ds, htext, hdecode, -, hreported⟩ := hpaths
  obtain ⟨root, hroot, hall⟩ := htags_back htext hnames
  obtain ⟨x, hx⟩ : ∃ x, x ∈ ds := by
    cases ds with
    | nil => cases hreported
    | cons x _ => exact ⟨x, List.mem_cons_self⟩
  have hx : clippingSample.schema.Reports d (.ofMode .lax) x := .inl ⟨some v, ds, hdecode, hx⟩
  obtain ⟨e, outer, hleads, htags⟩ := hall x hx
  exact ⟨d, root, x, e, outer, htext, hroot, hx, hleads, htags⟩

/-- Where a prefix is bound to no namespace and there is a default one, a name with the prefix is
written without it and read back in the default namespace. So are the tags of a document and the
path of a diagnostic. -/
theorem tags_misread :
    ((Scope.empty.withDefault "u").bind "p" "").Declared ∧ IsWritten "p:a" ∧
      ((Scope.empty.withDefault "u").bind "p" "").resolve "p:a" = .ok (.plain "a") ∧
      ((Scope.empty.withDefault "u").bind "p" "").write (.plain "a") = "a" ∧
      ((Scope.empty.withDefault "u").bind "p" "").resolve "a" = .ok ⟨"u", "a"⟩ ∧
    clippingSample.schema.HasPaths "<p:root xmlns=\"u\" xmlns:p=\"\"><p:item/></p:root>"
        ["/root", "/root/item"] ["/root/item"] ∧
      ((Document.ofText "<p:root xmlns=\"u\" xmlns:p=\"\"><p:item/></p:root>").toOption.bind
        (·.root.map fun root => (root.outline 0).map fun x =>
          (x.2.name, x.2.tag, (x.2.scope.resolve x.2.tag).toOption))) =
        some [(.plain "root", "root", some ⟨"u", "root"⟩),
          (.plain "item", "item", some ⟨"u", "item"⟩)] :=
  ⟨(Scope.Declared.empty.withDefault _).bind (by decide) _, by decide, by decide, by decide,
    by decide, Schema.hasPaths_of_pathsOf? (by decide +kernel), by decide +kernel⟩

end Conform
