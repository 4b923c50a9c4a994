import Conform.Validation
import Mathlib.Tactic.Common
/-!
# Parts of a pass

A pass is put together from single steps: values, failures, reports and looks at the options. What
holds of these and is kept where one follows another holds of every part of the pass over an
element, up to the check of its identity constraints.
-/

namespace Conform

/-- The options with another mode. -/
abbrev Options.inMode (o : Options) (m : Mode) : Options := { o with mode := m }

/-- A diagnostic about an element at a path, other than one about identity constraints. -/
structure Diagnostic.IsPlainAt (d : Diagnostic) (path : String) : Prop where
  kind_ne : d.kind ≠ .identity
  path_eq : d.path = path

/-- A computation that does not end with a diagnostic, whatever else may end it. -/
def Blameless {α : Type} (e : Except Failure α) : Prop := ∀ d, e ≠ .error (.invalid d)

theorem Blameless.ok {α : Type} (a : α) : Blameless (.ok a) :=
  fun _ heq => by cases heq

theorem Blameless.error {α β : Type} {e : Except Failure α} {f : Failure} (h : Blameless e)
    (he : e = .error f) : Blameless (.error f : Except Failure β) := by
  intro d heq
  exact h d (he.trans (congrArg Except.error (Except.error.inj heq)))

theorem Blameless.map {α β : Type} {e : Except Failure α} (h : Blameless e) (f : α → β) :
    Blameless (e.map f) := by
  cases e with
  | error failure => exact h.error rfl
  | ok a => exact .ok _

theorem blameless_checkMarkupDepth (limits : Limits) (depth : Nat) :
    Blameless (limits.checkMarkupDepth depth) := by
  intro d heq
  unfold Limits.checkMarkupDepth at heq
  split at heq <;> cases heq

theorem blameless_simpleType (s : Schema) (id : TypeId) : Blameless (s.simpleType id) := by
  intro d heq
  unfold Schema.simpleType at heq
  split at heq <;> cases heq

theorem blameless_formOf (s : Schema) (t : TypeDefinition) : Blameless (s.formOf t) := by
  unfold Schema.formOf
  split
  · exact .ok _
  · split
    · exact .ok _
    · exact (blameless_simpleType s _).map _
    · exact .ok _
    · exact .ok _

namespace Pass

variable {α β : Type}

/-! ## Runs -/

theorem options_andThen (f : Options → Pass α) (o : Options) :
    Pass.options.andThen f o = f o o := by
  unfold Pass.andThen Pass.options
  dsimp only
  cases f o o with
  | error _ => rfl
  | ok r => rfl

theorem ok_of_andThen {p : Pass α} {f : α → Pass β} {o : Options} {b : β} {ds : List Diagnostic}
    (h : p.andThen f o = .ok (b, ds)) :
    ∃ a first more, p o = .ok (a, first) ∧ f a o = .ok (b, more) ∧ ds = first ++ more := by
  unfold andThen at h
  split at h
  · cases h
  rename_i a first ha
  split at h
  · cases h
  rename_i b' more hb
  cases h
  exact ⟨a, first, more, ha, hb, rfl⟩

theorem andThen_of_ok {p : Pass α} {f : α → Pass β} {o : Options} {a : α} {b : β}
    {first more : List Diagnostic} (hp : p o = .ok (a, first)) (hf : f a o = .ok (b, more)) :
    p.andThen f o = .ok (b, first ++ more) := by
  unfold andThen
  simp only [hp, hf]

theorem ok_of_ofExcept {e : Except Failure α} {o : Options} {a : α} {ds : List Diagnostic}
    (h : Pass.ofExcept e o = .ok (a, ds)) : e = .ok a ∧ ds = [] := by
  cases e with
  | error f => cases h
  | ok b =>
      cases h
      exact ⟨rfl, rfl⟩

/-- What a pass leads to, whatever it reports. -/
def Yields (p : Pass α) (Q : α → Prop) : Prop := ∀ o a ds, p o = .ok (a, ds) → Q a

theorem Yields.done {a : α} {Q : α → Prop} (h : Q a) : (Pass.done a).Yields Q := by
  intro o b ds hb
  cases hb
  exact h

theorem Yields.after {p : Pass α} {f : α → Pass β} {Q : β → Prop} (h : ∀ a, (f a).Yields Q) :
    (p.andThen f).Yields Q := by
  intro o b ds hb
  obtain ⟨a, -, more, -, ha, -⟩ := ok_of_andThen hb
  exact h a o b more ha

/-- An error ends a strict pass. -/
theorem report_strict {o : Options} (hmode : o.mode = .strict) {d : Diagnostic}
    (hd : d.isError = true) {r : Unit × List Diagnostic} : Pass.report d o ≠ .ok r := by
  unfold Pass.report Mode.keep
  rw [hmode]
  simp only [hd, if_true]
  nofun

/-- A strict pass goes on only if nothing is wrong. -/
theorem reportIf_strict {o : Options} (hmode : o.mode = .strict) {d : Diagnostic}
    (hd : d.isError = true) {wrong : Bool} {r : Unit × List Diagnostic}
    (h : Pass.reportIf wrong d o = .ok r) : wrong = false := by
  unfold Pass.reportIf at h
  split at h
  · exact absurd h (report_strict hmode hd)
  · rename_i hwrong
    simpa using hwrong

theorem reportAll_strict {o : Options} (hmode : o.mode = .strict) {ds : List Diagnostic}
    (hds : ∀ d ∈ ds, d.isError = true) {r : Unit × List Diagnostic}
    (h : Pass.reportAll ds o = .ok r) : ds = [] := by
  cases ds with
  | nil => rfl
  | cons d rest =>
      obtain ⟨_, _⟩ := r
      obtain ⟨_, _, _, hreport, -, -⟩ := ok_of_andThen h
      exact absurd hreport (report_strict hmode (hds d (List.mem_cons_self ..)))

theorem report_kept {o : Options} (hmode : o.mode ≠ .strict) (d : Diagnostic) :
    Pass.report d o = .ok ((), if o.isSkip then [] else [d]) := by
  unfold Pass.report Mode.keep Options.isSkip
  cases hm : o.mode with
  | strict => exact absurd hm hmode
  | lax | skip => rfl

/-- A pass that is not strict reports everything, unless it drops everything. -/
theorem reportAll_kept {o : Options} (hmode : o.mode ≠ .strict) :
    ∀ ds : List Diagnostic, Pass.reportAll ds o = .ok ((), if o.isSkip then [] else ds)
  | [] => by
    rw [ite_self]
    rfl
  | d :: rest => by
    rw [Pass.reportAll, andThen_of_ok (report_kept hmode d) (reportAll_kept hmode rest)]
    split <;> rfl

theorem report_lax {o : Options} (hmode : o.mode = .lax) (d : Diagnostic) :
    Pass.report d o = .ok ((), [d]) := by
  rw [report_kept (by simp [hmode]), if_neg (by simp [Options.isSkip, hmode])]

theorem reportIf_lax {o : Options} (hmode : o.mode = .lax) (wrong : Bool) (d : Diagnostic) :
    Pass.reportIf wrong d o = .ok ((), if wrong then [d] else []) := by
  cases wrong with
  | true => exact report_lax hmode d
  | false => rfl

/-- A lax pass reports everything. -/
theorem reportAll_lax {o : Options} (hmode : o.mode = .lax) (ds : List Diagnostic) :
    Pass.reportAll ds o = .ok ((), ds) := by
  rw [reportAll_kept (by simp [hmode]), if_neg (by simp [Options.isSkip, hmode])]

/-! ## What is reported -/

theorem mem_of_report {d d' : Diagnostic} {o : Options} {u : Unit} {ds : List Diagnostic}
    (h : Pass.report d o = .ok (u, ds)) (hd : d' ∈ ds) : d' = d := by
  unfold Pass.report Mode.keep at h
  cases hmode : o.mode with
  | strict =>
      rw [hmode] at h
      dsimp only at h
      split at h
      · cases h
      · cases h
        exact List.mem_singleton.1 hd
  | lax =>
      rw [hmode] at h
      cases h
      exact List.mem_singleton.1 hd
  | skip =>
      rw [hmode] at h
      cases h
      cases hd

theorem mem_of_reportAll {d : Diagnostic} {o : Options} : ∀ {reported ds : List Diagnostic}
    {u : Unit}, Pass.reportAll reported o = .ok (u, ds) → d ∈ ds → d ∈ reported
  | [], _, _, h, hd => by
    cases h
    cases hd
  | first :: rest, _, _, h, hd => by
    obtain ⟨_, _, _, hfirst, hrest, rfl⟩ := ok_of_andThen h
    rcases List.mem_append.1 hd with hd | hd
    · exact mem_of_report hfirst hd ▸ List.mem_cons_self
    · exact List.mem_cons_of_mem _ (mem_of_reportAll hrest hd)

/-- A pass that reports diagnostics with a property alone. -/
def ReportsOnly (Q : Diagnostic → Prop) (p : Pass α) : Prop :=
  ∀ o a ds, p o = .ok (a, ds) → ∀ d ∈ ds, Q d

namespace ReportsOnly

variable {Q : Diagnostic → Prop}

theorem done (a : α) : (Pass.done a).ReportsOnly Q := by
  intro o b ds h d hd
  cases h
  cases hd

theorem options : Pass.options.ReportsOnly Q := by
  intro o b ds h d hd
  cases h
  cases hd

theorem ofExcept (e : Except Failure α) : (Pass.ofExcept e).ReportsOnly Q := by
  intro o a ds h d hd
  rw [(ok_of_ofExcept h).2] at hd
  cases hd

theorem report {d : Diagnostic} (hd : Q d) : (Pass.report d).ReportsOnly Q :=
  fun _ _ _ h _ hd' => mem_of_report h hd' ▸ hd

theorem andThen {p : Pass α} {f : α → Pass β} (hp : p.ReportsOnly Q)
    (hf : ∀ a, (f a).ReportsOnly Q) : (p.andThen f).ReportsOnly Q := by
  intro o b ds h d hd
  obtain ⟨a, first, more, ha, hb, rfl⟩ := ok_of_andThen h
  exact (List.mem_append.1 hd).elim (hp o a first ha d) (hf a o b more hb d)

end ReportsOnly

/-! ## Modular properties -/

/-- A property of the steps with which tags are decoded that is kept where one pass follows another.
Nothing is asked of reports about children, identity constraints or other places than the path, and
of computations that blame the document, and a pass must not tell options from others that are the
`Same`. -/
structure Tagwise (Same : Options → Options → Prop) (path : String)
    (P : ∀ {α : Type}, Pass α → Prop) : Prop where
  done {α : Type} (a : α) : P (Pass.done a)
  ofExcept {α : Type} {e : Except Failure α} : Blameless e → P (Pass.ofExcept e)
  report {d : Diagnostic} : d.IsPlainAt path → d.kind ≠ .children → P (Pass.report d)
  andThen {α β : Type} {p : Pass α} {f : α → Pass β} :
    P p → (∀ a, P (f a)) → P (p.andThen f)
  withOptions {α : Type} {f : Options → Pass α} :
    (∀ {o o' : Options}, Same o o' → f o = f o') → (∀ o, P (f o)) →
      P (Pass.options.andThen f)

/-- Such a property of all steps, also of reports about children. -/
structure Stepwise (Same : Options → Options → Prop) (path : String)
    (P : ∀ {α : Type}, Pass α → Prop) : Prop where
  done {α : Type} (a : α) : P (Pass.done a)
  ofExcept {α : Type} {e : Except Failure α} : Blameless e → P (Pass.ofExcept e)
  report {d : Diagnostic} : d.IsPlainAt path → P (Pass.report d)
  andThen {α β : Type} {p : Pass α} {f : α → Pass β} :
    P p → (∀ a, P (f a)) → P (p.andThen f)
  withOptions {α : Type} {f : Options → Pass α} :
    (∀ {o o' : Options}, Same o o' → f o = f o') → (∀ o, P (f o)) →
      P (Pass.options.andThen f)

/-- Such a property for options that are the same also in what becomes of defaults. -/
structure Modular (Same : Options → Options → Prop) (path : String)
    (P : ∀ {α : Type}, Pass α → Prop) : Prop extends Stepwise Same path P where
  usesDefaults {o o' : Options} : Same o o' → o.usesDefaults = o'.usesDefaults

namespace Tagwise

variable {Same : Options → Options → Prop} {path : String} {P : ∀ {α : Type}, Pass α → Prop}
  (h : Tagwise Same path P)
include h

theorem reportIf (wrong : Bool) {d : Diagnostic} (hd : d.IsPlainAt path)
    (hkind : d.kind ≠ .children) : P (Pass.reportIf wrong d) := by
  unfold Pass.reportIf
  split
  · exact h.report hd hkind
  · exact h.done ()

variable (s : Schema) (id : ElementId) (level : Nat)

/-! ## Tags -/

theorem typeOf (e : Element) : P (s.typeOf id path e) := by
  unfold Schema.typeOf
  dsimp only
  split
  · exact h.done _
  · split
    · exact h.done _
    · exact h.andThen (h.report ⟨nofun, rfl⟩ nofun) fun _ => h.done _

theorem nilOf (e : Element) : P (s.nilOf id path e) := by
  unfold Schema.nilOf
  split
  · exact h.done _
  · split
    · split
      · exact h.andThen (h.reportIf _ ⟨nofun, rfl⟩ nofun) fun _ => h.done _
      · exact h.andThen (h.report ⟨nofun, rfl⟩ nofun) fun _ => h.done _
    · exact h.andThen (h.reportIf _ ⟨nofun, rfl⟩ nofun) fun _ => h.done _

theorem attributeValue (a : AttributeDeclaration) (written : String) :
    P (s.attributeValue id path a written) := by
  refine h.andThen (h.ofExcept (blameless_simpleType s _)) fun t => ?_
  split
  · exact h.andThen (h.report ⟨nofun, rfl⟩ nofun) fun _ => h.done _
  · split
    · exact h.done _
    · exact h.andThen (h.reportIf _ ⟨nofun, rfl⟩ nofun) fun _ => h.done _

theorem decodeAttribute (type : Option ComplexType) (e : Element) (name : QName)
    (written : String) : P (s.decodeAttribute id path type e name written) := by
  unfold Schema.decodeAttribute
  split
  · split
    · exact h.andThen (h.report ⟨nofun, rfl⟩ nofun) fun _ => h.done _
    · exact h.andThen (h.attributeValue s id _ written) fun _ => h.done _
  · exact h.andThen (h.reportIf _ ⟨nofun, rfl⟩ nofun) fun _ => h.done _

theorem decodeAttributes (type : Option ComplexType) (e : Element) :
    ∀ (entries : List (QName × String)) (decoded : Listing QName Json),
      P (s.decodeAttributes id path type e entries decoded)
  | [], decoded => h.done decoded
  | (name, written) :: rest, decoded => by
    unfold Schema.decodeAttributes
    split
    · exact decodeAttributes type e rest decoded
    · refine h.andThen (h.decodeAttribute s id type e name written) fun value => ?_
      split
      · exact decodeAttributes type e rest decoded
      · exact decodeAttributes type e rest _

theorem missingAttribute (e : Element) (a : AttributeDeclaration) :
    P (s.missingAttribute id path e a) := by
  unfold Schema.missingAttribute
  split
  · exact h.done _
  · split
    · exact h.andThen (h.report ⟨(fun hkind => by cases hkind), rfl⟩
        (fun hkind => by cases hkind)) fun _ => h.done _
    · split
      · exact h.done _
      · exact h.andThen (h.ofExcept (blameless_simpleType s _)) fun _ => h.done _

theorem missingAttributes (e : Element) :
    ∀ as : List AttributeDeclaration, P (s.missingAttributes id path e as)
  | [] => h.done []
  | a :: rest =>
    h.andThen (h.missingAttribute s id e a) fun _ =>
      h.andThen (missingAttributes e rest) fun _ => h.done _

theorem attributesOf (hdefaults : ∀ {o o' : Options}, Same o o' → o.usesDefaults = o'.usesDefaults)
    (type : TypeDefinition) (e : Element) : P (s.attributesOf id path type e) :=
  h.andThen (h.decodeAttributes s id _ e _ _) fun _ =>
    h.andThen (h.missingAttributes s id e _) fun _ =>
      h.withOptions (fun hsame => by rw [hdefaults hsame]) fun _ => h.done _

theorem openElement (hdefaults : ∀ {o o' : Options}, Same o o' → o.usesDefaults = o'.usesDefaults)
    (e : Element) : P (s.openElement id level path e) := by
  refine h.andThen (h.ofExcept (blameless_checkMarkupDepth _ _)) fun _ => ?_
  refine h.andThen (h.typeOf s id e) fun t => ?_
  refine h.andThen (h.nilOf s id e) fun isNil => ?_
  refine h.andThen (h.attributesOf s id hdefaults (s.type t) e) fun values => ?_
  dsimp only
  split
  · exact h.andThen (h.done _) fun _ => h.done _
  · exact h.andThen (h.ofExcept (blameless_formOf s _)) fun _ => h.done _

end Tagwise

namespace Stepwise

variable {Same : Options → Options → Prop} {path : String} {P : ∀ {α : Type}, Pass α → Prop}
  (h : Stepwise Same path P)
include h

theorem tagwise : Tagwise Same path P :=
  ⟨h.done, h.ofExcept, fun hd _ => h.report hd, h.andThen, h.withOptions⟩

theorem map {p : Pass α} (hp : P p) (f : α → β) : P (f <$> p) :=
  h.andThen hp fun a => h.done (f a)

theorem reportIf (wrong : Bool) {d : Diagnostic} (hd : d.IsPlainAt path) :
    P (Pass.reportIf wrong d) := by
  unfold Pass.reportIf
  split
  · exact h.report hd
  · exact h.done ()

theorem reportAll : ∀ {ds : List Diagnostic}, (∀ d ∈ ds, d.IsPlainAt path) → P (Pass.reportAll ds)
  | [], _ => h.done ()
  | d :: _, hds => h.andThen (h.report (hds d List.mem_cons_self)) fun _ =>
      reportAll fun d' hd' => hds d' (List.mem_cons_of_mem _ hd')

variable (s : Schema) (id : ElementId) (level : Nat)

/-! ## Content -/

theorem textValue (t : SimpleType) (e : Element) (default : Option Json)
    (written : String) : P (s.textValue id path t e default written) := by
  unfold Schema.textValue
  split
  · exact h.andThen (h.report ⟨nofun, rfl⟩) fun _ => h.done _
  · split
    · exact h.done _
    · exact h.andThen (h.reportIf _ ⟨nofun, rfl⟩) fun _ => h.done _

theorem openContent (group : GroupId) (isMixed : Bool) (e : Element)
    (hskip : ∀ {o o' : Options}, Same o o' → o.isSkip = o'.isSkip)
    (hattribution : ∀ o names, P (Pass.ofExcept (s.attributionIn o group names))) :
    P (s.openContent id path group isMixed e) := by
  refine h.andThen (h.reportIf _ ⟨nofun, rfl⟩) fun _ => h.withOptions (fun hsame => ?_) fun o =>
    h.andThen (hattribution o _) fun _ => h.done _
  simp only [Schema.attributionIn, hskip hsame]

theorem closeContent (e : Element) (decoded : Decoded) (content : OpenContent)
    (below : Children) (hissues : P (Pass.ofExcept content.attribution.issues)) :
    P (s.closeContent id path e decoded content below) := by
  refine h.andThen hissues fun issues => h.andThen (h.reportAll ?_) fun _ => h.done _
  intro d hd
  obtain ⟨i, -, rfl⟩ := List.mem_map.1 hd
  exact ⟨nofun, rfl⟩

end Stepwise

namespace Modular

variable {Same : Options → Options → Prop} {path : String} {P : ∀ {α : Type}, Pass α → Prop}
  (h : Modular Same path P)
include h

variable (s : Schema) (id : ElementId) (level : Nat)

theorem openElement (e : Element) : P (s.openElement id level path e) :=
  h.tagwise.openElement s id level h.usesDefaults e

theorem simpleContent (t : SimpleType) (e : Element) : P (s.simpleContent id path t e) := by
  refine h.andThen (h.reportIf _ ⟨nofun, rfl⟩) fun _ => ?_
  refine h.withOptions (fun hsame => by rw [h.usesDefaults hsame]) fun o => ?_
  split
  · exact h.done _
  · exact h.andThen (h.textValue s id t e _ _) fun _ => h.done _

theorem decodeLeaf (e : Element) (decoded : Decoded) (form : Form) :
    P (s.decodeLeaf id path e decoded form) := by
  unfold Schema.decodeLeaf
  cases form with
  | absent | children => exact h.done _
  | empty => exact h.andThen (h.reportIf _ ⟨nofun, rfl⟩) fun _ => h.done _
  | text t => exact h.andThen (h.simpleContent s id t e) fun _ => h.done _
  | unfulfillable => exact h.andThen (h.report ⟨nofun, rfl⟩) fun _ => h.done _

end Modular

end Pass

/-! ## Elements -/

/-- An element with its own children is the element. -/
theorem Decoded.eq_of_children {d : Decoded} {children : List Decoded} (h : children = d.children) :
    { d with children } = d := by
  subst h
  cases d
  rfl

namespace Schema

open Pass

/-- Decodes the content of an element that is opened. -/
def contentOf (s : Schema) (id : ElementId) (level : Nat) (path : String) (e : Element)
    (opened : Opened) : Pass Subtree :=
  match opened.form with
  | .children group isMixed =>
    (s.openContent id path group isMixed e).andThen fun content =>
      (s.decodeChildren (level + 1) content.attribution.leaves (e.childPaths path)
        e.children).andThen fun below => s.closeContent id path e opened.decoded content below
  | form => s.decodeLeaf id path e opened.decoded form

/-- An element is opened, its content decoded and its constraints checked. -/
theorem decodeElement_eq (s : Schema) (id : ElementId) (level : Nat) (path : String) (e : Element) :
    s.decodeElement id level path e = (s.openElement id level path e).andThen fun opened =>
      (s.contentOf id level path e opened).andThen (s.closeElement id) := by
  obtain ⟨name, attributes, text, tail, children, scope⟩ := e
  rw [decodeElement]
  rfl

variable {s : Schema}

theorem openElement_yields (id : ElementId) (level : Nat) (path : String) (e : Element) :
    (s.openElement id level path e).Yields fun opened =>
      opened.decoded.declaration = some id ∧ opened.decoded.children = [] := by
  refine .after fun _ => .after fun _ => .after fun _ => .after fun _ => ?_
  dsimp only
  split
  · exact .after fun _ => .done ⟨rfl, rfl⟩
  · exact .after fun _ => .done ⟨rfl, rfl⟩

/-- What has no children keeps nothing. -/
theorem decodeLeaf_yields (id : ElementId) (path : String) (e : Element) (decoded : Decoded)
    (form : Form) : (s.decodeLeaf id path e decoded form).Yields fun t =>
      t.element.declaration = decoded.declaration ∧ t.element.children = decoded.children ∧
        t.held = .empty ∧ t.isTruncated = false := by
  unfold decodeLeaf
  cases form with
  | absent | children => exact .done ⟨rfl, rfl, rfl, rfl⟩
  | empty | text | unfulfillable => exact .after fun _ => .done ⟨rfl, rfl, rfl, rfl⟩

theorem closeContent_yields (id : ElementId) (path : String) (e : Element) (decoded : Decoded)
    (content : OpenContent) (below : Children) :
    (s.closeContent id path e decoded content below).Yields fun t =>
      t.element.declaration = decoded.declaration ∧ t.element.children = below.elements ∧
        t.held = below.held ∧ t.isTruncated = below.isTruncated :=
  .after fun _ => .after fun _ => .done ⟨rfl, rfl, rfl, rfl⟩

/-- The content of an element leaves what its tag says. -/
theorem contentOf_yields (id : ElementId) (level : Nat) (path : String) (e : Element)
    (opened : Opened) : (s.contentOf id level path e opened).Yields fun t =>
      t.element.tag = opened.decoded.tag ∧ t.element.path = opened.decoded.path ∧
        t.element.attributes = opened.decoded.attributes ∧
        t.element.declaration = opened.decoded.declaration := by
  unfold contentOf
  split
  · exact .after fun _ => .after fun _ => .after fun _ => .after fun _ => .done ⟨rfl, rfl, rfl, rfl⟩
  · unfold decodeLeaf
    split
    · exact .after fun _ => .done ⟨rfl, rfl, rfl, rfl⟩
    · exact .after fun _ => .done ⟨rfl, rfl, rfl, rfl⟩
    · exact .after fun _ => .done ⟨rfl, rfl, rfl, rfl⟩
    · exact .done ⟨rfl, rfl, rfl, rfl⟩
    · exact .done ⟨rfl, rfl, rfl, rfl⟩

/-- An element is opened by its type, whether it is nil, and its attributes. -/
theorem openElement_ok {id : ElementId} {level : Nat} {path : String} {e : Element}
    {o : Options} {opened : Opened} {ds : List Diagnostic}
    (h : s.openElement id level path e o = .ok (opened, ds)) :
    ∃ type isNil values, (∃ ds, s.typeOf id path e o = .ok (type, ds)) ∧
      (∃ ds, s.nilOf id path e o = .ok (isNil, ds)) ∧
      (∃ ds, s.attributesOf id path (s.type type) e o = .ok (values, ds)) ∧
      opened.decoded = { Decoded.leaf e.name path with
        attributes := values.attributes
        attributeDefaults := values.defaults
        isNil
        declaration := some id } ∧
      (isNil = true ∧ opened.form = .absent ∨
        isNil = false ∧ s.formOf (s.type type) = .ok opened.form) := by
  unfold openElement at h
  obtain ⟨_, _, _, -, htype, -⟩ := ok_of_andThen h
  obtain ⟨type, ds₁, _, ht, hnil, -⟩ := ok_of_andThen htype
  obtain ⟨isNil, ds₂, _, hn, hvalues, -⟩ := ok_of_andThen hnil
  obtain ⟨values, ds₃, _, hv, hshape, -⟩ := ok_of_andThen hvalues
  refine ⟨type, isNil, values, ⟨ds₁, ht⟩, ⟨ds₂, hn⟩, ⟨ds₃, hv⟩, ?_⟩
  dsimp only at hshape
  split at hshape
  · rename_i htrue
    obtain ⟨_, _, _, hform, hdone, -⟩ := ok_of_andThen hshape
    cases hform
    cases hdone
    exact ⟨rfl, .inl ⟨htrue, rfl⟩⟩
  · rename_i hfalse
    obtain ⟨form, _, _, hform, hdone, -⟩ := ok_of_andThen hshape
    cases hdone
    exact ⟨rfl, .inr ⟨by simpa using hfalse, (ok_of_ofExcept hform).1⟩⟩

/-- Children are decoded by the group of a type. -/
theorem group?_of_formOf {t : TypeDefinition} {group : GroupId} {isMixed : Bool}
    (h : s.formOf t = .ok (.children group isMixed)) :
    ∃ c, t = .complex c ∧ c.content.group? = some group := by
  unfold formOf at h
  split at h
  · cases h
  rename_i c
  refine ⟨c, rfl, ?_⟩
  split at h
  · cases h
  · unfold simpleType at h
    split at h <;> cases h
  · rename_i g hcontent
    rw [hcontent]
    split at h <;> cases h
    rfl
  · rename_i g hcontent
    rw [hcontent]
    split at h <;> cases h
    rfl

/-- A content that is opened has its attribution from the children's names. -/
theorem openContent_ok {id : ElementId} {path : String} {group : GroupId} {isMixed : Bool}
    {e : Element} {o : Options} {content : OpenContent} {ds : List Diagnostic}
    (h : s.openContent id path group isMixed e o = .ok (content, ds)) :
    s.attributionIn o group (e.children.map (·.name)) = .ok content.attribution ∧
      content.text = if isMixed then e.joinedText else none := by
  unfold openContent at h
  simp only [bind_eq_andThen] at h
  obtain ⟨_, _, _, -, hrest, -⟩ := ok_of_andThen h
  rw [options_andThen] at hrest
  obtain ⟨a, _, _, hattribution, hdone, -⟩ := ok_of_andThen hrest
  cases hdone
  exact ⟨(ok_of_ofExcept hattribution).1, rfl⟩

/-- A content that a strict pass completes has no issues. -/
theorem issues_of_closeContent {o : Options} (hmode : o.mode = .strict) {id : ElementId}
    {path : String} {e : Element} {decoded : Decoded} {content : OpenContent} {below : Children}
    {t : Subtree} {ds : List Diagnostic}
    (h : s.closeContent id path e decoded content below o = .ok (t, ds)) :
    content.attribution.issues = .ok [] ∧ t = ⟨{ decoded with
      text := content.text, children := below.elements }, below.held, below.isTruncated⟩ := by
  unfold closeContent at h
  obtain ⟨issues, _, _, hissues, hrest, -⟩ := ok_of_andThen h
  obtain ⟨_, _, _, hreport, hdone, -⟩ := ok_of_andThen hrest
  cases hdone
  have hnone := reportAll_strict hmode (by
    intro d hd
    obtain ⟨i, -, rfl⟩ := List.mem_map.1 hd
    rfl) hreport
  rw [(ok_of_ofExcept hissues).1, List.map_eq_nil_iff.1 hnone]
  exact ⟨rfl, rfl⟩

/-- The check of identity constraints leaves the element. -/
theorem closeElement_yields (id : ElementId) (t : Subtree) :
    (s.closeElement id t).Yields fun u => u.element = t.element := by
  unfold closeElement
  refine .after fun o => ?_
  split
  · exact .done rfl
  · exact .after fun _ => .done rfl

end Schema

/-! ## Elements without a declaration -/

mutual

/-- An element without a declaration is cut at the bound on the depth, whatever the mode. -/
theorem decodeRaw_congr {limits : Limits} {o o' : Options} (h : o.maxDepth = o'.maxDepth) :
    ∀ (level : Nat) (path : String) (e : Element),
      decodeRaw limits o level path e = decodeRaw limits o' level path e
  | level, path, ⟨_, _, _, _, children, _⟩ => by
    have hdeep : o.isTooDeep (level + 1) = o'.isTooDeep (level + 1) := by
      rw [Options.isTooDeep, Options.isTooDeep, h]
    unfold decodeRaw
    rw [hdeep, decodeRawAll_congr h (level + 1) _ children]

theorem decodeRawAll_congr {limits : Limits} {o o' : Options} (h : o.maxDepth = o'.maxDepth) :
    ∀ (level : Nat) (paths : List String) (es : List Element),
      decodeRawAll limits o level paths es = decodeRawAll limits o' level paths es
  | level, path :: paths, e :: rest => by
    unfold decodeRawAll
    rw [decodeRaw_congr h level path e, decodeRawAll_congr h level paths rest]
  | _, [], _ :: _ => rfl
  | _, [], [] => rfl
  | _, _ :: _, [] => rfl

end

mutual

theorem blameless_decodeRaw {limits : Limits} {o : Options} :
    ∀ (level : Nat) (path : String) (e : Element), Blameless (decodeRaw limits o level path e)
  | level, path, ⟨_, _, _, _, children, _⟩ => by
    unfold decodeRaw
    split
    · rename_i heq
      exact (blameless_checkMarkupDepth limits (level + 1)).error heq
    · dsimp only
      split
      · exact .ok _
      · split
        · rename_i heq
          exact (blameless_decodeRawAll (level + 1) _ children).error heq
        · exact .ok _

theorem blameless_decodeRawAll {limits : Limits} {o : Options} :
    ∀ (level : Nat) (paths : List String) (es : List Element),
      Blameless (decodeRawAll limits o level paths es)
  | level, path :: paths, e :: rest => by
    unfold decodeRawAll
    split
    · rename_i heq
      exact (blameless_decodeRaw level path e).error heq
    · split
      · rename_i heq
        exact (blameless_decodeRawAll level paths rest).error heq
      · exact .ok _
  | _, [], _ :: _ => .ok _
  | _, [], [] => .ok _
  | _, _ :: _, [] => .ok _

end

theorem Pass.Stepwise.keepElement {Same : Options → Options → Prop} {path : String}
    {P : ∀ {α : Type}, Pass α → Prop} (h : Pass.Stepwise Same path P)
    (hdepth : ∀ {o o' : Options}, Same o o' → o.maxDepth = o'.maxDepth)
    (s : Schema) (isMissed : Bool) (level : Nat) (e : Element) :
    P (s.keepElement isMissed level path e) := by
  refine h.andThen (h.reportIf _ ⟨nofun, rfl⟩) fun _ => h.withOptions (fun hsame => ?_) fun _ =>
    h.andThen (h.ofExcept (blameless_decodeRaw _ _ _)) fun _ => h.done _
  rw [decodeRaw_congr (hdepth hsame)]

end Conform
