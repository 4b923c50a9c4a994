import Conform.Proofs.Decode.References
import Conform.Proofs.Identity.Policies
/-!
# Passes under policies about missing values

The policy about the values that keys miss matters only where identity constraints are checked.
There it decides how severe the diagnostics about missing values are, and nothing else unless it
drops them. What is held of an element for the references further up is the same, so passes under
two policies run side by side from the leaves to the root.
-/

namespace Conform

/-- Lax options under which keys treat missing values in a given way. -/
abbrev Options.underPolicy (o : Options) (policy : AbsentKeyPolicy) : Options :=
  { o with mode := .lax, absentKeys := policy }

namespace Pass

variable {α β : Type}

/-- Two passes fail alike, or they come to results that are related. -/
inductive Alike (R : α → List Diagnostic → α → List Diagnostic → Prop) :
    Except Failure (α × List Diagnostic) → Except Failure (α × List Diagnostic) → Prop
  | failed {f : Failure} : Alike R (.error f) (.error f)
  | ok {a b : α} {ds es : List Diagnostic} : R a ds b es → Alike R (.ok (a, ds)) (.ok (b, es))

theorem Alike.imp {R S : α → List Diagnostic → α → List Diagnostic → Prop}
    {x y : Except Failure (α × List Diagnostic)} (h : Alike R x y)
    (himp : ∀ a ds b es, R a ds b es → S a ds b es) : Alike S x y := by
  cases h with
  | failed => exact .failed
  | ok h => exact .ok (himp _ _ _ _ h)

theorem Alike.andThen {R : α → List Diagnostic → α → List Diagnostic → Prop}
    {S : β → List Diagnostic → β → List Diagnostic → Prop} {p q : Pass α} {f g : α → Pass β}
    {o o' : Options} (hp : Alike R (p o) (q o'))
    (hf : ∀ a ds b es, p o = .ok (a, ds) → R a ds b es →
      Alike (fun c more c' more' => S c (ds ++ more) c' (es ++ more')) (f a o) (g b o')) :
    Alike S (p.andThen f o) (q.andThen g o') := by
  unfold Pass.andThen
  generalize hfirst : p o = first at hp
  generalize q o' = second at hp
  cases hp with
  | failed => exact .failed
  | @ok a b ds es hab =>
      have hnext := hf a ds b es hfirst hab
      dsimp only
      generalize f a o = first at hnext
      generalize g b o' = second at hnext
      cases hnext with
      | failed => exact .failed
      | ok hcd => exact .ok hcd

theorem Alike.map {R : α → List Diagnostic → α → List Diagnostic → Prop}
    {S : β → List Diagnostic → β → List Diagnostic → Prop} {p q : Pass α} {f : α → β}
    {o o' : Options} (hp : Alike R (p o) (q o'))
    (himp : ∀ a ds b es, R a ds b es → S (f a) ds (f b) es) :
    Alike S ((f <$> p) o) ((f <$> q) o') := by
  refine Alike.andThen hp fun a ds b es _ hab => .ok ?_
  rw [List.append_nil, List.append_nil]
  exact himp a ds b es hab

/-- A pass that does not look at the policy and reports no missing values. -/
def Impartial (policy : AbsentKeyPolicy) (p : Pass α) : Prop := ∀ o : Options,
  p (o.underPolicy policy) = p (o.underPolicy .error) ∧
    ∀ a ds, p (o.underPolicy .error) = .ok (a, ds) → ∀ d ∈ ds, d.isMissingKey = false

namespace Impartial

variable {policy : AbsentKeyPolicy}

theorem done (a : α) : (Pass.done a).Impartial policy :=
  fun _ => ⟨rfl, fun _ _ h => by cases h; exact List.forall_mem_nil _⟩

theorem ofExcept (e : Except Failure α) : (Pass.ofExcept e).Impartial policy := by
  refine fun _ => ⟨rfl, fun _ _ h => ?_⟩
  rw [(ok_of_ofExcept h).2]
  exact List.forall_mem_nil _

theorem report {d : Diagnostic} (hd : d.isMissingKey = false) :
    (Pass.report d).Impartial policy :=
  fun _ => ⟨rfl, fun _ _ h _ hmem => mem_of_report h hmem ▸ hd⟩

theorem andThen {p : Pass α} {f : α → Pass β} (hp : p.Impartial policy)
    (hf : ∀ a, (f a).Impartial policy) : (p.andThen f).Impartial policy := by
  intro o
  obtain ⟨heq, hreports⟩ := hp o
  constructor
  · unfold Pass.andThen
    rw [heq]
    split
    · rfl
    · rw [(hf _ o).1]
  · intro b ds h
    obtain ⟨a, first, more, ha, hb, rfl⟩ := ok_of_andThen h
    exact List.forall_mem_append.2 ⟨hreports a first ha, (hf a o).2 b more hb⟩

/-- Values are missed only where identity constraints are checked. -/
theorem modular {path : String} :
    Modular (fun o o' => ∃ p : Options, o = p.underPolicy .error ∧ o' = p.underPolicy policy) path
      @(fun _ p => Impartial policy p) where
  usesDefaults := by
    rintro _ _ ⟨p, rfl, rfl⟩
    rfl
  done := done
  ofExcept _ := ofExcept _
  report {d} hd := by
    refine report ?_
    unfold Diagnostic.isMissingKey
    split
    · rename_i hcause
      refine absurd ?_ hd.kind_ne
      rw [Diagnostic.kind, hcause]
      rfl
    · rfl
  andThen := andThen
  withOptions {_ f} hsame hf := by
    intro o
    rw [options_andThen, options_andThen, ← hsame ⟨o, rfl, rfl⟩]
    exact hf (o.underPolicy .error) o

theorem alike {p : Pass α} (h : p.Impartial policy) (o : Options) :
    Alike (fun a ds b es => a = b ∧ ds = es ∧ ∀ d ∈ ds, d.isMissingKey = false)
      (p (o.underPolicy .error)) (p (o.underPolicy policy)) := by
  obtain ⟨heq, hreports⟩ := h o
  rw [heq]
  cases hp : p (o.underPolicy .error) with
  | error f => exact .failed
  | ok r => exact .ok ⟨rfl, rfl, hreports r.1 r.2 hp⟩

end Impartial

end Pass

namespace Schema

open Pass

variable {s : Schema} {policy : AbsentKeyPolicy}

/-- What is held of a part of a document and reported on it where missing values are errors, and
under another policy: it is the same up to the severity of missing values, if the other policy
reports them or there are none. -/
def Matches (s : Schema) (policy : AbsentKeyPolicy) (elements : List Decoded)
    (held held' : HeldTuples) (ds es : List Diagnostic) : Prop :=
  (policy.severity? = none →
      ∀ n ∈ Decoded.nodesOfAll elements, s.HasKeyFields (s.constraintsOf n) n) →
    held' = held ∧ List.Forall₂ (Diagnostic.Recast policy) ds es

theorem Matches.same {elements : List Decoded} {held : HeldTuples} {ds : List Diagnostic}
    (h : ∀ d ∈ ds, d.isMissingKey = false) : Matches s policy elements held held ds ds :=
  fun _ => ⟨rfl, Diagnostic.forall₂_recast h⟩

theorem Matches.append {elements more : List Decoded} {held held' rest rest' : HeldTuples}
    {ds es ds' es' : List Diagnostic} (h : Matches s policy elements held held' ds es)
    (h' : Matches s policy more rest rest' ds' es') :
    Matches s policy (elements ++ more) (held ++ rest) (held' ++ rest') (ds ++ ds')
      (es ++ es') := by
  intro hfields
  rw [Decoded.nodesOfAll_append] at hfields
  obtain ⟨rfl, hds⟩ := h fun hpolicy n hn => hfields hpolicy n (List.mem_append_left _ hn)
  obtain ⟨rfl, hds'⟩ := h' fun hpolicy n hn => hfields hpolicy n (List.mem_append_right _ hn)
  exact ⟨rfl, List.rel_append hds hds'⟩

/-- Diagnostics about other things do not matter. -/
theorem Matches.preceded {elements : List Decoded} {held held' : HeldTuples}
    {ds es before : List Diagnostic} (h : Matches s policy elements held held' ds es)
    (hbefore : ∀ d ∈ before, d.isMissingKey = false) :
    Matches s policy elements held held' (before ++ ds) (before ++ es) := by
  intro hfields
  obtain ⟨hheld, hds⟩ := h hfields
  exact ⟨hheld, List.rel_append (Diagnostic.forall₂_recast hbefore) hds⟩

theorem Matches.followed {elements : List Decoded} {held held' : HeldTuples}
    {ds es after : List Diagnostic} (h : Matches s policy elements held held' ds es)
    (hafter : ∀ d ∈ after, d.isMissingKey = false) :
    Matches s policy elements held held' (ds ++ after) (es ++ after) := by
  intro hfields
  obtain ⟨hheld, hds⟩ := h hfields
  exact ⟨hheld, List.rel_append hds (Diagnostic.forall₂_recast hafter)⟩

/-! ## Elements -/

/-- An element whose content is complete, or that is complete itself, in the two passes. -/
structure Paired (s : Schema) (policy : AbsentKeyPolicy) (elements : List Decoded) (t : Subtree)
    (ds : List Diagnostic) (u : Subtree) (es : List Diagnostic) : Prop where
  element : u.element = t.element
  isTruncated : u.isTruncated = t.isTruncated
  matched : Matches s policy elements t.held u.held ds es

/-- Children in the two passes. -/
structure PairedAll (s : Schema) (policy : AbsentKeyPolicy) (below : Children)
    (ds : List Diagnostic) (below' : Children) (es : List Diagnostic) : Prop where
  elements : below'.elements = below.elements
  isTruncated : below'.isTruncated = below.isTruncated
  matched : Matches s policy below.elements below.held below'.held ds es

theorem PairedAll.append {here here' after after' : Children} {ds es more more' : List Diagnostic}
    (h : PairedAll s policy here ds here' es) (h' : PairedAll s policy after more after' more') :
    PairedAll s policy (here ++ after) (ds ++ more) (here' ++ after') (es ++ more') where
  elements := by
    show here'.elements ++ after'.elements = here.elements ++ after.elements
    rw [h.elements, h'.elements]
  isTruncated := by
    show (here'.isTruncated || after'.isTruncated) = (here.isTruncated || after.isTruncated)
    rw [h.isTruncated, h'.isTruncated]
  matched := h.matched.append h'.matched

theorem alike_nothing (o : Options) : Alike (PairedAll s policy)
    (Pass.done Children.nothing (o.underPolicy .error))
    (Pass.done Children.nothing (o.underPolicy policy)) :=
  .ok ⟨rfl, rfl, .same (List.forall_mem_nil _)⟩

/-- The constraints of an element are checked with what is held below it. -/
theorem closeElement_alike (o : Options) {id : ElementId} {t u : Subtree}
    {ds es : List Diagnostic} (hid : t.element.declaration = some id)
    (h : Paired s policy t.element.children t ds u es) :
    Alike (fun t' more u' more' => Paired s policy [t'.element] t' (ds ++ more) u' (es ++ more'))
      (s.closeElement id t (o.underPolicy .error))
      (s.closeElement id u (o.underPolicy policy)) := by
  obtain ⟨helement, htruncated, hmatched⟩ := h
  have hids : (s.element id).identities = s.constraintsOf t.element := by rw [constraintsOf, hid]
  have hskip (p : AbsentKeyPolicy) : (o.underPolicy p).isSkip = false := rfl
  unfold closeElement
  simp only [bind_eq_andThen, pure_eq_done]
  rw [options_andThen, options_andThen, hskip, hskip, htruncated, helement, hids, Bool.false_or]
  cases htruncation : t.isTruncated with
  | true =>
      refine .ok ⟨helement, htruncated, fun hfields => ?_⟩
      rw [Decoded.nodesOfAll_singleton] at hfields
      rw [List.append_nil, List.append_nil]
      exact hmatched fun hpolicy n hn => hfields hpolicy n (List.mem_cons_of_mem _ hn)
  | false =>
      rw [if_neg Bool.false_ne_true, if_neg Bool.false_ne_true,
        andThen_of_ok (reportAll_lax rfl _) rfl, andThen_of_ok (reportAll_lax rfl _) rfl]
      refine .ok ⟨rfl, rfl, fun hfields => ?_⟩
      rw [Decoded.nodesOfAll_singleton] at hfields
      obtain ⟨hheld, hds⟩ :=
        hmatched fun hpolicy n hn => hfields hpolicy n (List.mem_cons_of_mem _ hn)
      obtain ⟨hcheck, hproblems⟩ := checkScope_recast
        (fun hpolicy => hfields hpolicy t.element List.mem_cons_self) o.maxDepth.isNone t.held
      rw [hheld]
      refine ⟨hcheck, List.rel_append hds (List.rel_append ?_ .nil)⟩
      rw [List.forall₂_map_left_iff, List.forall₂_map_right_iff]
      exact hproblems.imp fun _ _ h => h.about (some id)

theorem closeContent_alike (o : Options) {id : ElementId} {path : String} {e : Element}
    {decoded : Decoded} {content : OpenContent} {below below' : Children}
    {ds es : List Diagnostic} (h : PairedAll s policy below ds below' es) :
    Alike (fun t more u more' =>
        (∀ d ∈ more, d.isMissingKey = false) ∧ more = more' ∧ t.element.children = below.elements ∧
          u = { t with held := below'.held } ∧ t.held = below.held)
      (s.closeContent id path e decoded content below (o.underPolicy .error))
      (s.closeContent id path e decoded content below' (o.underPolicy policy)) := by
  unfold closeContent
  refine ((Impartial.ofExcept _).alike o).andThen fun issues ds _ _ _ hissues => ?_
  obtain ⟨rfl, rfl, hds⟩ := hissues
  have hplain : ∀ d ∈ issues.map fun i =>
      Diagnostic.errorAt (.children (s.childrenFault e i)) path id, d.IsPlainAt path := by
    intro d hd
    obtain ⟨i, -, rfl⟩ := List.mem_map.1 hd
    exact ⟨nofun, rfl⟩
  refine ((Impartial.modular.reportAll hplain).alike o).andThen fun _ more _ _ _ hreport => ?_
  obtain ⟨rfl, rfl, hmore⟩ := hreport
  refine .ok ⟨?_, rfl, rfl, ?_, rfl⟩
  · rw [List.append_nil]
    exact List.forall_mem_append.2 ⟨hds, hmore⟩
  · rw [h.elements, h.isTruncated]

/-- What an element contains, if its children are alike. -/
theorem contentOf_alike (o : Options) {id : ElementId} {level : Nat} {path : String} {e : Element}
    {opened : Opened} (hchildren : ∀ leaves paths, Alike (PairedAll s policy)
      (s.decodeChildren (level + 1) leaves paths e.children (o.underPolicy .error))
      (s.decodeChildren (level + 1) leaves paths e.children (o.underPolicy policy))) :
    Alike (fun t ds u es => Paired s policy t.element.children t ds u es)
      (s.contentOf id level path e opened (o.underPolicy .error))
      (s.contentOf id level path e opened (o.underPolicy policy)) := by
  unfold contentOf
  generalize opened.form = form
  cases form with
  | children group isMixed =>
      have hopen : (s.openContent id path group isMixed e).Impartial policy := by
        refine Impartial.modular.openContent s id _ _ _ ?_ fun _ _ => .ofExcept _
        rintro _ _ ⟨p, rfl, rfl⟩
        rfl
      refine (hopen.alike o).andThen fun content before _ _ _ hcontent => ?_
      obtain ⟨rfl, rfl, hbefore⟩ := hcontent
      refine (hchildren _ _).andThen fun below ds below' es _ hbelow => ?_
      refine (closeContent_alike o hbelow).imp fun t more u more' hclose => ?_
      obtain ⟨hmore, rfl, helements, rfl, hheld⟩ := hclose
      refine ⟨rfl, rfl, ?_⟩
      rw [helements, hheld]
      exact (hbelow.matched.followed hmore).preceded hbefore
  | absent | empty | text | unfulfillable =>
      refine ((Impartial.modular.decodeLeaf s id _ _ _).alike o).imp fun t ds u es hleaf => ?_
      obtain ⟨rfl, rfl, hds⟩ := hleaf
      exact ⟨rfl, rfl, .same hds⟩

mutual

theorem decodeElement_alike (o : Options) : ∀ (id : ElementId) (level : Nat) (path : String)
    (e : Element), Alike (fun t ds u es => Paired s policy [t.element] t ds u es)
      (s.decodeElement id level path e (o.underPolicy .error))
      (s.decodeElement id level path e (o.underPolicy policy))
  | id, level, path, ⟨name, attributes, text, tail, children, scope⟩ => by
    rw [decodeElement_eq]
    refine ((Impartial.modular.openElement s id level _).alike o).andThen
      fun opened before _ _ hok hopen => ?_
    obtain ⟨rfl, rfl, hbefore⟩ := hopen
    have hopened := (openElement_yields id level path _ _ _ _ hok).1
    refine Alike.andThen (contentOf_alike o fun leaves paths =>
      decodeChildren_alike o (level + 1) leaves paths children) fun t ds u es hok hpaired => ?_
    obtain ⟨-, -, -, hdeclaration⟩ := contentOf_yields id level path _ opened _ _ _ hok
    refine (closeElement_alike o (hdeclaration.trans hopened) hpaired).imp fun _ _ _ _ h => ?_
    exact ⟨h.element, h.isTruncated, h.matched.preceded hbefore⟩

theorem decodeChildren_alike (o : Options) : ∀ (level : Nat) (leaves : List (Option Member))
    (paths : List String) (es : List Element), Alike (PairedAll s policy)
      (s.decodeChildren level leaves paths es (o.underPolicy .error))
      (s.decodeChildren level leaves paths es (o.underPolicy policy))
  | level, leaf :: leaves, path :: paths, e :: rest => by
    have hrest := decodeChildren_alike o level leaves paths rest
    have hkept (isMissed : Bool) : (s.keepElement isMissed level path e).Impartial policy := by
      refine Impartial.modular.keepElement ?_ s isMissed level e
      rintro _ _ ⟨p, rfl, rfl⟩
      rfl
    unfold decodeChildren
    cases leaf.bind fun m => s.treatment m e.name with
    | none => exact hrest
    | some treatment =>
        simp only [bind_eq_andThen, pure_eq_done]
        rw [options_andThen, options_andThen]
        have htooDeep : (o.underPolicy policy).isTooDeep level =
          (o.underPolicy .error).isTooDeep level := rfl
        rw [htooDeep]
        refine Alike.andThen (R := PairedAll s policy) ?_ fun here ds here' es _ hhere =>
          hrest.andThen fun after more after' more' _ hafter => .ok ?_
        · split
          · exact .ok ⟨rfl, rfl, .same (List.forall_mem_nil _)⟩
          · cases treatment with
            | declared id => exact (decodeElement_alike o id level path e).map fun t ds u es h =>
                ⟨by simp [Children.ofSubtree, h.element], h.isTruncated, h.matched⟩
            | raw isMissed =>
                refine ((hkept isMissed).alike o).map fun t ds u es h => ?_
                obtain ⟨rfl, rfl, hds⟩ := h
                exact ⟨rfl, rfl, .same hds⟩
        · rw [List.append_nil, List.append_nil]
          exact hhere.append hafter
  | _, [], _, _ :: _ => by
    unfold decodeChildren
    exact alike_nothing o
  | _, _ :: _, [], _ :: _ => by
    unfold decodeChildren
    exact alike_nothing o
  | _, [], _, [] => by
    unfold decodeChildren
    exact alike_nothing o
  | _, _ :: _, [], [] => by
    unfold decodeChildren
    exact alike_nothing o
  | _, _ :: _, _ :: _, [] => by
    unfold decodeChildren
    exact alike_nothing o

end

/-! ## Documents -/

theorem decodeDocument_alike (policy : AbsentKeyPolicy) (d : Document) (o : Options) :
    Alike (fun v ds v' es => v' = v ∧ ((policy.severity? = none → ∀ root ∈ v, ∀ n ∈ root.nodes,
        s.HasKeyFields (s.constraintsOf n) n) → List.Forall₂ (Diagnostic.Recast policy) ds es))
      (s.decodeDocument d (o.underPolicy .error)) (s.decodeDocument d (o.underPolicy policy)) := by
  unfold decodeDocument
  cases d.root with
  | none => exact .ok ⟨rfl, fun _ => .cons (.refl rfl) .nil⟩
  | some root =>
      dsimp only
      cases s.elementNamed? root.name with
      | none => exact .ok ⟨rfl, fun _ => .cons (.refl rfl) .nil⟩
      | some id =>
          refine (decodeElement_alike o id 0 _ root).andThen fun t ds u es _ h => .ok ?_
          refine ⟨congrArg some h.element, fun hfields => ?_⟩
          rw [List.append_nil, List.append_nil]
          refine (h.matched fun hpolicy n hn => ?_).2
          rw [Decoded.nodesOfAll, Decoded.nodesOfAll, List.append_nil] at hn
          exact hfields hpolicy t.element rfl n hn

end Schema

/-- Definitions with names as their keys. -/
def policySample : Components :=
  let c := Components.withElements .v10 [("def", ⟨0, none⟩)]
  let c := c.withGroup .choice ⟨0, none⟩ [.element ⟨0⟩]
  let c := (c.addLocalType (.complex (.ofContent (.elementOnly ⟨0⟩)))).2
  let c := (c.addIdentity ⟨.plain "names", .key, "def", ["@n"], .empty⟩).2
  (c.addGlobalElement { Declaration.simple (.plain "defs") ⟨1⟩ with identities := [⟨0⟩] }).2

/-- A definition without a name. -/
def policyDocument : Document :=
  ⟨some { Element.leaf (.plain "defs") with children := [Element.leaf (.plain "def")] }⟩

/-- The missing name is an error, a warning or nothing. -/
example : [AbsentKeyPolicy.error, .warn, .exclude].map (fun policy =>
    (policySample.schema.decode policyDocument
      ((Options.ofMode .lax).underPolicy policy)).toOption.map
        fun r => r.2.map fun d => (d.isMissingKey, d.severity)) =
    [some [(true, .error)], some [(true, .warning)], some []] := by
  decide +kernel

end Conform
