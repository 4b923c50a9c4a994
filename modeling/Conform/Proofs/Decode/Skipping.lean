import Conform.Proofs.Decode.Parts
import Conform.Proofs.Model.Outcome
import Conform.Proofs.Model.Placement
import Conform.Proofs.Schema.Sample
/-!
# Passes in skip mode

A pass in skip mode attributes children by their names alone and reports nothing. Where all leaves of
a content model have different names, the names tell the same leaves as a strict pass that comes to
its end, and what is decoded is the same.
-/

namespace Conform

namespace Pass

variable {α β : Type} {o : Options}

/-! ## Silence -/

/-- A pass under options that reports nothing and does not end with a diagnostic. -/
structure Silent (o : Options) (p : Pass α) : Prop where
  blameless : Blameless (p o)
  nothing : ∀ {a : α} {ds : List Diagnostic}, p o = .ok (a, ds) → ds = []

theorem Silent.done (a : α) : Silent o (Pass.done a) := ⟨.ok _, fun h => by cases h; rfl⟩

theorem Silent.ofExcept {e : Except Failure α} (h : Blameless e) : Silent o (Pass.ofExcept e) :=
  ⟨h.map _, fun h => (ok_of_ofExcept h).2⟩

theorem Silent.andThen {p : Pass α} {f : α → Pass β} (hp : Silent o p)
    (hf : ∀ a ds, p o = .ok (a, ds) → Silent o (f a)) : Silent o (p.andThen f) := by
  constructor
  · unfold Pass.andThen
    split
    · rename_i heq
      exact hp.blameless.error heq
    · rename_i a ds heq
      split
      · rename_i heq'
        exact (hf a ds heq).blameless.error heq'
      · exact .ok _
  · intro b ds h
    obtain ⟨a, first, more, ha, hb, rfl⟩ := ok_of_andThen h
    rw [hp.nothing ha, (hf a first ha).nothing hb]
    rfl

theorem Silent.report (hmode : o.mode = .skip) (d : Diagnostic) : Silent o (Pass.report d) := by
  have hkeep : Pass.report d o = .ok ((), []) := by
    unfold Pass.report Mode.keep
    rw [hmode]
    rfl
  refine ⟨hkeep ▸ .ok _, fun h => ?_⟩
  rw [hkeep] at h
  cases h
  rfl

/-- Every part of a pass is silent in skip mode. -/
theorem Silent.modular {path : String} (hmode : o.mode = .skip) :
    Modular Eq path (fun p => Silent o p) where
  usesDefaults := congrArg _
  done := .done
  ofExcept := .ofExcept
  report _ := .report hmode _
  andThen hp hf := hp.andThen fun a _ _ => hf a
  withOptions _ hf := Silent.andThen ⟨.ok _, fun h => by cases h; rfl⟩ fun a _ _ => hf a

/-! ## What a strict pass leads to -/

/-- What the pass leads to in strict mode, it leads to in skip mode, without diagnostics. -/
def Skips (o : Options) (p : Pass α) : Prop :=
  ∀ a ds, p (o.inMode .strict) = .ok (a, ds) → p (o.inMode .skip) = .ok (a, [])

theorem andThen_silent {p : Pass α} {f : α → Pass β} {a : α} {b : β} (hp : p o = .ok (a, []))
    (hf : f a o = .ok (b, [])) : p.andThen f o = .ok (b, []) :=
  andThen_of_ok hp hf

/-- What belongs to an element alone is the same in skip mode. -/
theorem Skips.modular {path : String} (o : Options) :
    Modular (fun o' o'' => ∃ m, o' = o''.inMode m) path (fun p => Skips o p) where
  usesDefaults := by
    rintro _ o ⟨m, rfl⟩
    rfl
  done a b ds h := by
    cases h
    rfl
  ofExcept _ a ds h := by
    obtain ⟨rfl, -⟩ := ok_of_ofExcept h
    rfl
  report _ _ _ _ := rfl
  andThen hp hf b ds h := by
    obtain ⟨a, first, more, ha, hb, -⟩ := ok_of_andThen h
    exact andThen_silent (hp a first ha) (hf a b more hb)
  withOptions hsame hf a ds h := by
    rw [options_andThen] at h ⊢
    have hback : ∃ m, o.inMode .skip = (o.inMode .strict).inMode m := ⟨.skip, rfl⟩
    rw [hsame hback]
    exact hf (o.inMode .strict) a ds h

end Pass

namespace Schema

open Pass

variable {s : Schema} {o : Options}

theorem blameless_attribution (root : GroupId) (names : List QName) :
    Blameless (s.attribution root names) := by
  simp only [attribution, Matching.start, bind, Except.bind, pure, Except.pure]
  cases h : Walk.start s root s.version with
  | ok w => exact .ok _
  | error f => exact fun d heq => by cases heq; cases Walk.endsWalk_of_start h

theorem blameless_looseAttribution (root : GroupId) (names : List QName) :
    Blameless (s.looseAttribution root names) := by
  simp only [looseAttribution, bind, Except.bind, pure, Except.pure]
  cases h : Walk.start s root s.version with
  | ok w => exact .ok _
  | error f => exact fun d heq => by cases heq; cases Walk.endsWalk_of_start h

theorem blameless_attributionIn (o : Options) (root : GroupId) (names : List QName) :
    Blameless (s.attributionIn o root names) := by
  unfold attributionIn
  split
  · exact blameless_looseAttribution root names
  · exact blameless_attribution root names

theorem blameless_issues_children : ∀ (names : List QName) (index : Nat) (m : Matching),
    Blameless (Matching.children s index m names).issues
  | [], index, m => by
    simp only [Matching.children, Matching.finish, bind, Except.bind, pure, Except.pure]
    cases h : m.walk.stop s with
    | mk stopped w =>
      cases stopped with
      | ok violations => exact .ok _
      | error f => exact fun d heq => by cases heq; cases Walk.endsWalk_of_stopFrom h
  | name :: rest, index, m => by
    simp only [Matching.children]
    cases h : m.child s index name with
    | error f =>
        exact fun d heq => by cases heq; cases Matching.attributeFrom_endsWalk h
    | ok r => exact blameless_issues_children rest (index + 1) r.2

/-- Whatever ends the attribution of children is not a diagnostic. -/
theorem blameless_issues {root : GroupId} {names : List QName} {a : Attribution}
    (h : s.attributionIn o root names = .ok a) : Blameless a.issues := by
  unfold attributionIn at h
  split at h
  · simp only [looseAttribution, bind, Except.bind, pure, Except.pure] at h
    split at h
    · cases h
    · cases h
      exact .ok _
  · simp only [attribution, bind, Except.bind, pure, Except.pure] at h
    split at h
    · cases h
    · cases h
      exact blameless_issues_children names 0 _

/-! ## Silence of whole passes -/

theorem silent_closeElement (hmode : o.mode = .skip) (id : ElementId) (t : Subtree) :
    Silent o (s.closeElement id t) := by
  unfold closeElement
  refine .andThen ⟨.ok _, fun h => by cases h; rfl⟩ fun o' ds ho => ?_
  cases ho
  rw [if_pos (by simp [Options.isSkip, hmode])]
  exact .done t

mutual

theorem silent_decodeElement (hmode : o.mode = .skip) : ∀ (id : ElementId) (level : Nat)
    (path : String) (e : Element), Silent o (s.decodeElement id level path e)
  | id, level, path, ⟨name, attributes, text, tail, children, scope⟩ => by
    have hparts := @Silent.modular o path hmode
    rw [decodeElement_eq]
    refine (hparts.openElement s id level _).andThen fun opened _ _ => ?_
    refine Silent.andThen ?_ fun t _ _ => silent_closeElement hmode id t
    unfold contentOf
    split
    · rename_i group isMixed _
      refine (hparts.openContent s id group isMixed _ (congrArg _)
        fun o' names => .ofExcept (blameless_attributionIn o' group names)).andThen
          fun content _ hcontent => ?_
      refine Silent.andThen (silent_decodeChildren hmode (level + 1) _ _ children)
        fun below _ _ => ?_
      exact hparts.closeContent s id _ _ content below
        (.ofExcept (blameless_issues (openContent_ok hcontent).1))
    · exact hparts.decodeLeaf s id _ _ _

theorem silent_decodeChildren (hmode : o.mode = .skip) : ∀ (level : Nat)
    (leaves : List (Option Member)) (paths : List String) (es : List Element),
    Silent o (s.decodeChildren level leaves paths es)
  | level, leaf :: leaves, path :: paths, e :: rest => by
    unfold decodeChildren
    split
    · exact silent_decodeChildren hmode level leaves paths rest
    · refine .andThen ⟨.ok _, fun h => by cases h; rfl⟩ fun o' _ _ => ?_
      refine Silent.andThen ?_ fun _ _ _ =>
        (silent_decodeChildren hmode level leaves paths rest).andThen fun _ _ _ => .done _
      split
      · exact .done _
      · split
        · exact (silent_decodeElement hmode _ level path e).andThen fun _ _ _ => .done _
        · exact ((Silent.modular hmode).keepElement (congrArg _) s _ level e).andThen
            fun _ _ _ => .done _
  | _, [], _, _ :: _ => .done _
  | _, _ :: _, [], _ :: _ => .done _
  | _, [], _, [] => .done _
  | _, _ :: _, [], [] => .done _
  | _, _ :: _, _ :: _, [] => .done _

end

theorem silent_decodeDocument (hmode : o.mode = .skip) (d : Document) :
    Silent o (s.decodeDocument d) := by
  unfold decodeDocument
  split
  · exact (Silent.report hmode _).andThen fun _ _ _ => .done _
  · dsimp only
    split
    · exact (Silent.report hmode _).andThen fun _ _ _ => .done _
    · exact (silent_decodeElement hmode _ _ _ _).andThen fun _ _ _ => .done _

/-! ## Strict passes that come to their end -/

/-- The leaves of every content model are elements of different names. -/
def HasDistinctContents (s : Schema) : Prop :=
  ∀ type t group, s.type type = .complex t → t.content.group? = some group →
    s.DistinctElements (s.leaves group)

/-- The leaves of a content without issues are the same in skip mode. -/
theorem openContent_skips (hs : s.Built) {id : ElementId} {path : String} {group : GroupId}
    (hdistinct : s.DistinctElements (s.leaves group)) {isMixed : Bool} {e : Element}
    {content : OpenContent} {ds : List Diagnostic}
    (h : s.openContent id path group isMixed e (o.inMode .strict) = .ok (content, ds))
    (hissues : content.attribution.issues = .ok []) :
    s.openContent id path group isMixed e (o.inMode .skip) = .ok (content, []) := by
  obtain ⟨hattribution, htext⟩ := openContent_ok h
  have hloose : s.attributionIn (o.inMode .skip) group (e.children.map (·.name)) =
      .ok content.attribution :=
    leaves_of_issues_eq_nil hs hdistinct hattribution hissues
  have hreport : Pass.reportIf (!isMixed && e.hasText && !s.isLoneWildcard group)
      (.errorAt .textBetweenChildren path id) (o.inMode .skip) = .ok ((), []) := by
    unfold Pass.reportIf
    split <;> rfl
  unfold openContent
  simp only [bind_eq_andThen]
  refine andThen_silent hreport ?_
  rw [options_andThen]
  refine andThen_silent (a := content.attribution) ?_ ?_
  · rw [hloose]
    rfl
  · rw [← htext]
    rfl

theorem closeElement_skip (hmode : o.mode = .skip) (id : ElementId) (t : Subtree) :
    s.closeElement id t o = .ok (t, []) := by
  unfold closeElement
  rw [bind_eq_andThen, options_andThen, if_pos (by simp [Options.isSkip, hmode])]
  rfl

mutual

/-- An element that a strict pass decodes is decoded in the same way in skip mode. -/
theorem decodeElement_skips (hs : s.Built) (hdistinct : s.HasDistinctContents) :
    ∀ {id : ElementId} {level : Nat} {path : String} {e : Element} {t : Subtree}
      {ds : List Diagnostic}, s.decodeElement id level path e (o.inMode .strict) = .ok (t, ds) →
        ∃ u, s.decodeElement id level path e (o.inMode .skip) = .ok (u, []) ∧
          u.element = t.element
  | id, level, path, ⟨name, attributes, text, tail, children, scope⟩, t, ds, h => by
    rw [decodeElement_eq] at h ⊢
    generalize he : Element.mk name attributes text tail children scope = e at h ⊢
    obtain ⟨opened, ds₁, _, hopen, hrest, -⟩ := ok_of_andThen h
    obtain ⟨content, ds₂, ds₃, hcontent, hclose, -⟩ := ok_of_andThen hrest
    rw [closeElement_yields id content _ t ds₃ hclose]
    have hopened := (Skips.modular o).openElement s id level e opened ds₁ hopen
    suffices hsame : ∃ u, s.contentOf id level path e opened (o.inMode .skip) = .ok (u, []) ∧
        u.element = content.element by
      obtain ⟨u, hu, helement⟩ := hsame
      exact ⟨u, andThen_silent hopened (andThen_silent hu (closeElement_skip rfl id u)), helement⟩
    unfold contentOf at hcontent ⊢
    cases hform : opened.form with
    | children group isMixed =>
        simp only [hform] at hcontent ⊢
        obtain ⟨start, ds₄, _, hstart, hafter, -⟩ := ok_of_andThen hcontent
        obtain ⟨below, ds₅, ds₆, hchildren, hend, -⟩ := ok_of_andThen hafter
        obtain ⟨hissues, rfl⟩ := issues_of_closeContent rfl hend
        have hgroup : s.DistinctElements (s.leaves group) := by
          obtain ⟨type, _, _, -, -, -, -, hcases⟩ := openElement_ok hopen
          rw [hform] at hcases
          rcases hcases with ⟨-, habsent⟩ | ⟨-, hof⟩
          · cases habsent
          · obtain ⟨t, ht, hgroup⟩ := group?_of_formOf hof
            exact hdistinct type t group ht hgroup
        have hstarted := openContent_skips hs hgroup hstart hissues
        subst he
        obtain ⟨below', hbelow, helements⟩ := decodeChildren_skips hs hdistinct hchildren
        refine ⟨⟨{ opened.decoded with text := start.text, children := below'.elements },
          below'.held, below'.isTruncated⟩, ?_, by rw [helements]⟩
        refine andThen_silent hstarted (andThen_silent hbelow ?_)
        unfold closeContent
        rw [hissues]
        rfl
    | absent | empty | text | unfulfillable =>
        simp only [hform] at hcontent ⊢
        exact ⟨content, (Skips.modular o).decodeLeaf s id e _ _ content ds₂ hcontent, rfl⟩

theorem decodeChildren_skips (hs : s.Built) (hdistinct : s.HasDistinctContents) :
    ∀ {level : Nat} {leaves : List (Option Member)} {paths : List String} {es : List Element}
      {below : Children} {ds : List Diagnostic},
      s.decodeChildren level leaves paths es (o.inMode .strict) = .ok (below, ds) →
        ∃ below', s.decodeChildren level leaves paths es (o.inMode .skip) = .ok (below', []) ∧
          below'.elements = below.elements
  | level, leaf :: leaves, path :: paths, e :: rest, below, ds, h => by
    unfold decodeChildren at h ⊢
    generalize (leaf.bind fun m => s.treatment m e.name) = treated at h ⊢
    cases treated with
    | none => exact decodeChildren_skips hs hdistinct h
    | some treatment =>
        simp only [bind_eq_andThen, options_andThen] at h ⊢
        obtain ⟨here, ds₁, _, hhere, hrest, -⟩ := ok_of_andThen h
        obtain ⟨after, ds₂, _, hafter, hdone, -⟩ := ok_of_andThen hrest
        cases hdone
        obtain ⟨after', hmore, hsame⟩ := decodeChildren_skips hs hdistinct hafter
        suffices hfirst : ∃ here', (if (o.inMode .skip).isTooDeep level = true then
            Pass.done Children.truncated else match treatment with
            | .declared id => Children.ofSubtree <$> s.decodeElement id level path e
            | .raw isMissed => Children.ofSubtree <$> s.keepElement isMissed level path e :
              Pass Children) (o.inMode .skip) = .ok (here', []) ∧
            here'.elements = here.elements by
          obtain ⟨here', hfirst, hsame'⟩ := hfirst
          refine ⟨here' ++ after', andThen_silent hfirst (andThen_silent hmore rfl), ?_⟩
          show here'.elements ++ after'.elements = here.elements ++ after.elements
          rw [hsame, hsame']
        have hdeep : (o.inMode .strict).isTooDeep level = (o.inMode .skip).isTooDeep level := rfl
        rw [hdeep] at hhere
        by_cases htoo : (o.inMode .skip).isTooDeep level = true
        · rw [if_pos htoo] at hhere ⊢
          cases hhere
          exact ⟨_, rfl, rfl⟩
        rw [if_neg htoo] at hhere ⊢
        cases treatment with
        | declared id =>
            obtain ⟨t, _, _, ht, hdone, -⟩ := ok_of_andThen hhere
            cases hdone
            obtain ⟨u, hu, helement⟩ := decodeElement_skips hs hdistinct ht
            refine ⟨.ofSubtree u, andThen_silent hu rfl, ?_⟩
            show [u.element] = [t.element]
            rw [helement]
        | raw isMissed =>
            obtain ⟨t, ds₃, _, ht, hdone, -⟩ := ok_of_andThen hhere
            cases hdone
            have hkept := (Skips.modular o).keepElement (by rintro _ _ ⟨_, rfl⟩; rfl) s isMissed
              level e t ds₃ ht
            exact ⟨_, andThen_silent hkept rfl, rfl⟩
  | _, [], _, _ :: _, _, _, h => by
    cases h
    exact ⟨_, rfl, rfl⟩
  | _, _ :: _, [], _ :: _, _, _, h => by
    cases h
    exact ⟨_, rfl, rfl⟩
  | _, [], _, [], _, _, h => by
    cases h
    exact ⟨_, rfl, rfl⟩
  | _, _ :: _, [], [], _, _, h => by
    cases h
    exact ⟨_, rfl, rfl⟩
  | _, _ :: _, _ :: _, [], _, _, h => by
    cases h
    exact ⟨_, rfl, rfl⟩

end

/-! ## Documents -/

end Schema

/-- An `a`, and then any number of `b` and `c`. -/
def skippingSample : Components :=
  let c := Components.withElements .v10 [("a", .once), ("b", .once), ("c", .once)]
  let c := c.withGroup .choice ⟨0, none⟩ [.element ⟨1⟩, .element ⟨2⟩]
  let c := c.withGroup .sequence .once [.element ⟨0⟩, .group ⟨0⟩]
  let c := (c.addLocalType (.complex (.ofContent (.elementOnly ⟨1⟩)))).2
  (c.addGlobalElement (.simple (.plain "root") ⟨1⟩)).2

/-- An `a`, a `c` and a `b`. -/
def skippingDocument : Document :=
  ⟨some { Element.leaf (.plain "root") with
    children := ["a", "c", "b"].map fun name => .leaf (.plain name) }⟩

end Conform
