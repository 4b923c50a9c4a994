import Conform.Proofs.Decode.Parts
import Conform.Proofs.Model.Outcome
import Conform.Proofs.Schema.Handles
import Conform.Proofs.Schema.Sample
/-!
# How a pass fails

A pass over a document consults components by their handles, and in a built schema each of them is
there. What else a handle must be is not checked when a schema is built: the type of an attribute
and of simple content may be complex, and a pass that needs its values fails. Apart from that, only
a limit ends a pass that is not strict.
-/

namespace Conform

/-! ## Handles that are consulted -/

namespace Schema

/-- A walk through the content of a group, wherever it is on its way. -/
def WalksThrough (s : Schema) (root : GroupId) (w : Walk) : Prop :=
  ∃ w₀ : Walk, w₀.root = root ∧ Walk.Hops s (w₀.clear s) w

/-- The elements that a pass decodes by a declaration, with their levels and paths: the root, and
children whose leaf asks for a declaration. -/
inductive Visits (s : Schema) (d : Document) (o : Options) :
    ElementId → Nat → String → Element → Prop
  | root {id : ElementId} {e : Element} : d.root = some e → s.elementNamed? e.name = some id →
      Visits s d o id 0 ("/" ++ e.tag) e
  | child {id id' : ElementId} {level : Nat} {path path' : String} {e e' : Element}
      {opened : Opened} {group : GroupId} {isMixed : Bool} {content : OpenContent} {leaf : Member}
      {ds ds' : List Diagnostic} : Visits s d o id level path e →
      s.openElement id level path e o = .ok (opened, ds) → opened.form = .children group isMixed →
      s.openContent id path group isMixed e o = .ok (content, ds') →
      (some leaf, path', e') ∈ content.attribution.leaves.zip ((e.childPaths path).zip e.children) →
      s.treatment leaf e'.name = some (.declared id') → Visits s d o id' (level + 1) path' e'

/-- An element that is decoded has this type. -/
def VisitsWith (s : Schema) (d : Document) (o : Options) (t : TypeId) : Prop :=
  ∃ id level path e ds, s.Visits d o id level path e ∧ s.typeOf id path e o = .ok (t, ds)

/-- An element that is decoded has this group as its content. -/
def VisitsGroup (s : Schema) (d : Document) (o : Options) (g : GroupId) : Prop :=
  ∃ t c, s.VisitsWith d o t ∧ s.type t = .complex c ∧ c.content.group? = some g

/-- The handles that a pass over a document consults. -/
inductive Consults (s : Schema) (d : Document) (o : Options) :
    {sort : Component} → Handle sort → Prop
  | declaration {id : ElementId} {level : Nat} {path : String} {e : Element} :
      s.Visits d o id level path e → Consults s d o id
  | type {t : TypeId} : s.VisitsWith d o t → Consults s d o t
  | attributeType {t : TypeId} {c : ComplexType} {a : AttributeDeclaration} : s.VisitsWith d o t →
      s.type t = .complex c → a ∈ c.attributes.values → Consults s d o a.type
  | text {t id : TypeId} {c : ComplexType} : s.VisitsWith d o t → s.type t = .complex c →
      c.content = .simple id → Consults s d o id
  | content {g : GroupId} : s.VisitsGroup d o g → Consults s d o g
  /-- A walk goes through groups and through their members. -/
  | around {g : GroupId} {w : Walk} {f : Frame} : s.VisitsGroup d o g → s.WalksThrough g w →
      f ∈ w.here :: w.outer → Consults s d o f.group
  | member {g : GroupId} {w : Walk} {f : Frame} {m : Member} : s.VisitsGroup d o g →
      s.WalksThrough g w → f ∈ w.here :: w.outer → m ∈ (s.group f.group).members →
      Consults s d o m.handle
  | leaf {g : GroupId} {w : Walk} {m : Member} : s.VisitsGroup d o g → s.WalksThrough g w →
      m ∈ w.current ∨ m ∈ s.leaves g → Consults s d o m.handle
  /-- An issue names particles. -/
  | particle {g : GroupId} {names : List QName} {a : Attribution} {issues : List Issue} {i : Issue}
      {m : Member} : s.VisitsGroup d o g → s.attributionIn o g names = .ok a →
      a.issues = .ok issues → i ∈ issues → (m = i.particle ∨ ∃ ms ∈ i.expected, m ∈ ms) →
      Consults s d o m.handle
  | identity {id : ElementId} {level : Nat} {path : String} {e : Element} {i : IdentityId} :
      s.Visits d o id level path e → i ∈ (s.element id).identities → Consults s d o i
  | key {i key : IdentityId} : Consults s d o i → (s.rule i).refers = some key →
      Consults s d o key

variable {s : Schema} {d : Document} {o : Options}

theorem stores_of_mem_particles {m : Member} (h : m ∈ s.particles) : s.Stores m.handle := by
  simp only [Components.particles, List.mem_append, List.mem_map, List.mem_range] at h
  rcases h with (⟨i, hi, rfl⟩ | ⟨i, hi, rfl⟩) | ⟨i, hi, rfl⟩ <;> exact hi

theorem mem_particles_of_stores {g : GroupId} (h : s.Stores g) : .group g ∈ s.particles :=
  Components.mem_particles (Components.stores_handle (m := .group g).1 h)

/-- The type of an element is there. -/
theorem typeOf_yields (hs : s.Built) {id : ElementId} (hid : s.Stores id) (path : String)
    (e : Element) : (s.typeOf id path e).Yields fun t => s.Stores t := by
  have hknown := hs.declarationKnown hid
  have hselected : s.Stores ((s.element id).selectType e) := by
    unfold Declaration.selectType
    cases hfind : (s.element id).alternatives.find? (·.passes e) with
    | none => exact hknown.type
    | some a => exact hknown.alternatives a (List.mem_of_find?_eq_some hfind)
  unfold typeOf
  dsimp only
  split
  · exact .done hselected
  · split
    · rename_i hnamed
      unfold namedType? at hnamed
      split at hnamed
      · exact .done (hs.namesKnown.type hnamed)
      · cases hnamed
    · exact .after fun _ => .done hselected

/-- The group of an element is that of its type. -/
theorem visitsGroup_of_form {id : ElementId} {level : Nat} {path : String} {e : Element}
    (h : s.Visits d o id level path e) {opened : Opened} {ds : List Diagnostic}
    (hopen : s.openElement id level path e o = .ok (opened, ds)) {group : GroupId} {isMixed : Bool}
    (hform : opened.form = .children group isMixed) : s.VisitsGroup d o group := by
  obtain ⟨t, isNil, values, ⟨ds', htype⟩, -, -, -, hnil⟩ := openElement_ok hopen
  rcases hnil with ⟨-, habsent⟩ | ⟨-, hof⟩
  · rw [hform] at habsent
    cases habsent
  · rw [hform] at hof
    obtain ⟨c, hc, hgroup⟩ := group?_of_formOf hof
    exact ⟨t, c, ⟨id, level, path, e, ds', h, htype⟩, hc, hgroup⟩

theorem VisitsGroup.stored (hs : s.Built) {g : GroupId} (h : s.VisitsGroup d o g) : s.Stores g := by
  obtain ⟨t, c, -, hc, hgroup⟩ := h
  exact (hs.typeKnown hc).2.group hgroup

/-- The declaration of an element that is decoded is there. -/
theorem Visits.stored (hs : s.Built) {id : ElementId} {level : Nat} {path : String} {e : Element}
    (h : s.Visits d o id level path e) : s.Stores id := by
  induction h with
  | root _ hnamed => exact hs.namesKnown.element hnamed
  | @child id id' level path path' e e' opened group isMixed content leaf ds ds' hvisits hopen hform
      hcontent hmem htreated _ =>
      have hgroup := (visitsGroup_of_form hvisits hopen hform).stored hs
      have hknown := attributionIn_known hs (mem_particles_of_stores hgroup)
        (openContent_ok hcontent).1
      have hleaf := hknown.leaves _ (List.of_mem_zip hmem).1 leaf rfl
      have hthere := stores_of_mem_particles (hs.mem_particles_of_leaf hleaf)
      unfold treatment at htreated
      split at htreated
      · cases htreated
        exact hthere
      · split at htreated <;> cases htreated
        rename_i hnamed
        exact hs.namesKnown.element hnamed
      · cases htreated

theorem WalksThrough.grounded (hs : s.Built) {g : GroupId} (hg : s.Stores g) {w : Walk}
    (h : s.WalksThrough g w) : w.Grounded s := by
  obtain ⟨w₀, rfl, hops⟩ := h
  exact (Walk.grounded_clear hs (mem_particles_of_stores hg)).of_hops hs hops

/-- Every handle that a pass consults has its component. -/
theorem Consults.stored (hs : s.Built) {sort : Component} {h : Handle sort}
    (hc : s.Consults d o h) : s.Stores h := by
  induction hc with
  | declaration hvisits => exact hvisits.stored hs
  | type hwith =>
      obtain ⟨id, level, path, e, ds, hvisits, htype⟩ := hwith
      exact typeOf_yields hs (hvisits.stored hs) path e _ _ _ htype
  | attributeType _ ht ha => exact (hs.typeKnown ht).2.attributes _ ha
  | text _ ht hsimple => exact (hs.typeKnown ht).2.simple hsimple
  | content hgroup => exact hgroup.stored hs
  | around hgroup hwalk hf =>
      exact stores_of_mem_particles ((hwalk.grounded hs (hgroup.stored hs)).groups _ hf)
  | member _ _ _ hm => exact hs.stores_member hm
  | leaf hgroup hwalk hm =>
      rcases hm with hcurrent | hleaf
      · have hgrounded := hwalk.grounded hs (hgroup.stored hs)
        exact stores_of_mem_particles (hgrounded.lodged.current _ hcurrent).2
      · exact stores_of_mem_particles (hs.mem_particles_of_leaf hleaf)
  | particle hgroup hattribution hissues hi hm =>
      have hknown := (attributionIn_known hs (mem_particles_of_stores (hgroup.stored hs))
        hattribution).issues _ hissues _ hi
      rcases hm with rfl | ⟨ms, hms, hm⟩
      · exact stores_of_mem_particles hknown.particle
      · exact stores_of_mem_particles (hknown.expected ms hms _ hm)
  | identity hvisits hi => exact (hs.declarationKnown (hvisits.stored hs)).identities _ hi
  | key _ hrefers => exact hs.stores_refers hrefers

end Schema

/-! ## Failures -/

/-- A complex type counts on a type to be simple: that of its text or of an attribute. -/
def ComplexType.Reads (c : ComplexType) (id : TypeId) : Prop :=
  c.content = .simple id ∨ ∃ a ∈ c.attributes.values, a.type = id

/-- A type that must be simple is complex. -/
def Failure.Mistypes (s : Schema) (c : ComplexType) (f : Failure) : Prop :=
  ∃ id, c.Reads id ∧ (s.type id).asSimple? = none ∧ f = .notSimple id

/-- The bound on the depth of documents is exceeded. -/
def Failure.ExceedsMarkup (limits : Limits) (f : Failure) : Prop :=
  ∃ depth, f = .markupDepth depth limits.maxMarkupDepth ∧ limits.maxMarkupDepth < depth

/-- What ends a pass over a document that is not strict. -/
inductive Failure.EndsPass (s : Schema) (d : Document) (o : Options) : Failure → Prop
  | markup {f : Failure} : f.ExceedsMarkup s.limits → EndsPass s d o f
  | model {f : Failure} : f.EndsAttribution s → EndsPass s d o f
  /-- The type of an element that is decoded is at fault. -/
  | mistyped {f : Failure} {t : TypeId} {c : ComplexType} : s.VisitsWith d o t →
      s.type t = .complex c → f.Mistypes s c → EndsPass s d o f

namespace Pass

variable {α β : Type} {o : Options} {P Q : Failure → Prop}

/-- How a pass fails under options, if at all. -/
def FailsAs (p : Pass α) (o : Options) (Q : Failure → Prop) : Prop := ∀ f, p o = .error f → Q f

namespace FailsAs

theorem imp {p : Pass α} (h : p.FailsAs o P) (himp : ∀ f, P f → Q f) : p.FailsAs o Q :=
  fun f hf => himp f (h f hf)

theorem done (a : α) : (Pass.done a).FailsAs o Q := fun _ h => by cases h

theorem options : Pass.options.FailsAs o Q := fun _ h => by cases h

theorem ofExcept {e : Except Failure α} (h : ∀ f, e = .error f → Q f) :
    (Pass.ofExcept e).FailsAs o Q := by
  intro f hf
  cases e with
  | ok a => cases hf
  | error f' =>
      cases hf
      exact h f rfl

theorem andThen {p : Pass α} {f : α → Pass β} (hp : p.FailsAs o Q)
    (hf : ∀ a ds, p o = .ok (a, ds) → (f a).FailsAs o Q) : (p.andThen f).FailsAs o Q := by
  intro failure h
  unfold Pass.andThen at h
  split at h
  · rename_i heq
    cases h
    exact hp failure heq
  · rename_i a ds heq
    split at h
    · rename_i herror
      cases h
      exact hf a ds heq failure herror
    · cases h

theorem map {p : Pass α} (hp : p.FailsAs o Q) (f : α → β) : (f <$> p).FailsAs o Q :=
  hp.andThen fun a _ _ => done (f a)

variable (hmode : o.mode ≠ .strict)
include hmode

/-- Only a strict pass fails where something is wrong. -/
theorem reportAll (ds : List Diagnostic) : (Pass.reportAll ds).FailsAs o Q := by
  intro f hf
  rw [reportAll_kept hmode] at hf
  cases hf

theorem report (d : Diagnostic) : (Pass.report d).FailsAs o Q := by
  intro f hf
  unfold Pass.report Mode.keep at hf
  cases hm : o.mode with
  | strict => exact absurd hm hmode
  | lax | skip =>
      rw [hm] at hf
      cases hf

theorem reportIf (wrong : Bool) (d : Diagnostic) : (Pass.reportIf wrong d).FailsAs o Q := by
  unfold Pass.reportIf
  split
  · exact report hmode d
  · exact done ()

end FailsAs

end Pass

theorem Limits.checkMarkupDepth_fails {limits : Limits} {depth : Nat} {f : Failure}
    (h : limits.checkMarkupDepth depth = .error f) : f.ExceedsMarkup limits := by
  unfold checkMarkupDepth at h
  split at h
  · rename_i hlt
    cases h
    exact ⟨depth, rfl, hlt⟩
  · cases h

mutual

/-- An element without a declaration can only be too deep. -/
theorem decodeRaw_fails {limits : Limits} {o : Options} {f : Failure} :
    ∀ (level : Nat) (path : String) (e : Element),
      decodeRaw limits o level path e = .error f → f.ExceedsMarkup limits
  | level, path, ⟨_, _, _, _, children, _⟩, h => by
    unfold decodeRaw at h
    split at h
    · rename_i hdepth
      cases h
      exact Limits.checkMarkupDepth_fails hdepth
    · dsimp only at h
      split at h
      · cases h
      · split at h
        · rename_i hbelow
          cases h
          exact decodeRawAll_fails (level + 1) _ children hbelow
        · cases h

theorem decodeRawAll_fails {limits : Limits} {o : Options} {f : Failure} :
    ∀ (level : Nat) (paths : List String) (es : List Element),
      decodeRawAll limits o level paths es = .error f → f.ExceedsMarkup limits
  | level, path :: paths, e :: rest, h => by
    unfold decodeRawAll at h
    split at h
    · rename_i hhere
      cases h
      exact decodeRaw_fails level path e hhere
    · split at h
      · rename_i hafter
        cases h
        exact decodeRawAll_fails level paths rest hafter
      · cases h
  | _, [], _ :: _, h => by cases h
  | _, [], [], h => by cases h
  | _, _ :: _, [], h => by cases h

end

/-! ## Tags -/

namespace Schema

open Pass

variable {s : Schema} {o : Options} {Q : Failure → Prop}

theorem simpleType_fails {id : TypeId} {f : Failure} (h : s.simpleType id = .error f) :
    (s.type id).asSimple? = none ∧ f = .notSimple id := by
  unfold simpleType at h
  split at h
  · cases h
  · rename_i hnone
    cases h
    exact ⟨hnone, rfl⟩

theorem formOf_fails {t : TypeDefinition} {f : Failure} (h : s.formOf t = .error f) :
    ∃ c, t = .complex c ∧ f.Mistypes s c := by
  unfold formOf at h
  split at h
  · cases h
  rename_i c
  split at h
  · cases h
  · rename_i id hcontent
    cases hsimple : s.simpleType id with
    | ok t =>
        rw [hsimple] at h
        cases h
    | error f' =>
        rw [hsimple] at h
        cases h
        exact ⟨c, rfl, id, .inl hcontent, simpleType_fails hsimple⟩
  · cases h
  · cases h

variable (hmode : o.mode ≠ .strict) (id : ElementId) (path : String)
include hmode

theorem typeOf_fails (e : Element) : (s.typeOf id path e).FailsAs o Q := by
  unfold typeOf
  dsimp only
  split
  · exact .done _
  · split
    · exact .done _
    · exact (FailsAs.report hmode _).andThen fun _ _ _ => .done _

theorem nilOf_fails (e : Element) : (s.nilOf id path e).FailsAs o Q := by
  unfold nilOf
  split
  · exact .done _
  · split
    · split
      · exact (FailsAs.reportIf hmode _ _).andThen fun _ _ _ => .done _
      · exact (FailsAs.report hmode _).andThen fun _ _ _ => .done _
    · exact (FailsAs.reportIf hmode _ _).andThen fun _ _ _ => .done _

/-- The value of an attribute is missed only if its type is complex. -/
theorem attributeValue_fails (a : AttributeDeclaration) (written : String) :
    (s.attributeValue id path a written).FailsAs o fun f =>
      (s.type a.type).asSimple? = none ∧ f = .notSimple a.type := by
  refine (FailsAs.ofExcept fun f => simpleType_fails).andThen fun t _ _ => ?_
  split
  · exact (FailsAs.report hmode _).andThen fun _ _ _ => .done _
  · split
    · exact .done _
    · exact (FailsAs.reportIf hmode _ _).andThen fun _ _ _ => .done _

theorem decodeAttribute_fails (type : Option ComplexType) (e : Element) (name : QName)
    (written : String) : (s.decodeAttribute id path type e name written).FailsAs o fun f =>
      ∃ c ∈ type, f.Mistypes s c := by
  unfold decodeAttribute
  split
  · rename_i a ha
    split
    · exact (FailsAs.report hmode _).andThen fun _ _ _ => .done _
    · refine ((s.attributeValue_fails hmode id path a written).imp ?_).andThen fun _ _ _ => .done _
      rintro f ⟨hcomplex, rfl⟩
      obtain ⟨c, hc, hget⟩ := Option.bind_eq_some_iff.1 ha
      exact ⟨c, hc, a.type, .inr ⟨a, Listing.mem_values_of_get? hget, rfl⟩, hcomplex, rfl⟩
  · exact (FailsAs.reportIf hmode _ _).andThen fun _ _ _ => .done _

theorem decodeAttributes_fails (type : Option ComplexType) (e : Element) :
    ∀ (entries : List (QName × String)) (decoded : Listing QName Json),
      (s.decodeAttributes id path type e entries decoded).FailsAs o fun f =>
        ∃ c ∈ type, f.Mistypes s c
  | [], decoded => .done decoded
  | (name, written) :: rest, decoded => by
    unfold decodeAttributes
    split
    · exact decodeAttributes_fails type e rest decoded
    · refine (s.decodeAttribute_fails hmode id path type e name written).andThen fun value _ _ => ?_
      split
      · exact decodeAttributes_fails type e rest decoded
      · exact decodeAttributes_fails type e rest _

theorem missingAttribute_fails (e : Element) (a : AttributeDeclaration) :
    (s.missingAttribute id path e a).FailsAs o fun f =>
      (s.type a.type).asSimple? = none ∧ f = .notSimple a.type := by
  unfold missingAttribute
  split
  · exact .done _
  · split
    · exact (FailsAs.report hmode _).andThen fun _ _ _ => .done _
    · split
      · exact .done _
      · exact (FailsAs.ofExcept fun f => simpleType_fails).andThen fun _ _ _ => .done _

theorem missingAttributes_fails (e : Element) : ∀ as : List AttributeDeclaration,
    (s.missingAttributes id path e as).FailsAs o fun f =>
      ∃ a ∈ as, (s.type a.type).asSimple? = none ∧ f = .notSimple a.type
  | [] => .done []
  | a :: rest => by
    refine ((s.missingAttribute_fails hmode id path e a).imp ?_).andThen fun _ _ _ =>
      ((missingAttributes_fails e rest).imp ?_).andThen fun _ _ _ => .done _
    · exact fun f hf => ⟨a, List.mem_cons_self, hf⟩
    · rintro f ⟨a', ha', hf⟩
      exact ⟨a', List.mem_cons_of_mem _ ha', hf⟩

theorem attributesOf_fails (type : TypeDefinition) (e : Element) :
    (s.attributesOf id path type e).FailsAs o fun f =>
      ∃ c, type = .complex c ∧ f.Mistypes s c := by
  have hcomplex : ∀ {c}, c ∈ type.asComplex? → type = .complex c := by
    intro c hc
    cases type with
    | simple => cases hc
    | complex => exact congrArg _ (Option.some.inj hc)
  refine ((s.decodeAttributes_fails hmode id path _ e _ _).imp ?_).andThen fun _ _ _ =>
    ((s.missingAttributes_fails hmode id path e _).imp ?_).andThen fun _ _ _ =>
      FailsAs.options.andThen fun _ _ _ => .done _
  · rintro f ⟨c, hc, hf⟩
    exact ⟨c, hcomplex hc, hf⟩
  · rintro f ⟨a, ha, hsimple, rfl⟩
    cases type with
    | simple => cases ha
    | complex c => exact ⟨c, rfl, a.type, .inr ⟨a, ha, rfl⟩, hsimple, rfl⟩

/-- An element is not opened if it is too deep, or if its type is at fault. -/
theorem openElement_fails {d : Document} {level : Nat} {e : Element}
    (hvisits : s.Visits d o id level path e) :
    (s.openElement id level path e).FailsAs o (Failure.EndsPass s d o) := by
  refine (FailsAs.ofExcept fun f hf => .markup (Limits.checkMarkupDepth_fails hf)).andThen
    fun _ _ _ => (s.typeOf_fails hmode id path e).andThen fun t ds ht =>
      (s.nilOf_fails hmode id path e).andThen fun isNil _ _ =>
        ((s.attributesOf_fails hmode id path _ e).imp ?_).andThen fun _ _ _ => ?_
  · rintro f ⟨c, hc, hf⟩
    exact .mistyped ⟨id, level, path, e, ds, hvisits, ht⟩ hc hf
  · dsimp only
    split
    · exact (FailsAs.done _).andThen fun _ _ _ => .done _
    · refine (FailsAs.ofExcept fun f hf => ?_).andThen fun _ _ _ => .done _
      obtain ⟨c, hc, hmistypes⟩ := formOf_fails hf
      exact .mistyped ⟨id, level, path, e, ds, hvisits, ht⟩ hc hmistypes

/-! ## Content -/

theorem textValue_fails (t : SimpleType) (e : Element) (default : Option Json) (written : String) :
    (s.textValue id path t e default written).FailsAs o Q := by
  unfold textValue
  split
  · exact (FailsAs.report hmode _).andThen fun _ _ _ => .done _
  · split
    · exact .done _
    · exact (FailsAs.reportIf hmode _ _).andThen fun _ _ _ => .done _

theorem decodeLeaf_fails (e : Element) (decoded : Decoded) (form : Form) :
    (s.decodeLeaf id path e decoded form).FailsAs o Q := by
  unfold decodeLeaf
  cases form with
  | absent | children => exact .done _
  | empty => exact (FailsAs.reportIf hmode _ _).andThen fun _ _ _ => .done _
  | unfulfillable => exact (FailsAs.report hmode _).andThen fun _ _ _ => .done _
  | text t =>
      refine FailsAs.andThen ?_ fun _ _ _ => .done _
      refine (FailsAs.reportIf hmode _ _).andThen fun _ _ _ =>
        FailsAs.options.andThen fun _ _ _ => ?_
      split
      · exact .done _
      · exact (s.textValue_fails hmode id path t e _ _).andThen fun _ _ _ => .done _

theorem openContent_fails (hs : s.Built) (group : GroupId) (isMixed : Bool) (e : Element) :
    (s.openContent id path group isMixed e).FailsAs o (Failure.EndsAttribution s) := by
  refine (FailsAs.reportIf hmode _ _).andThen fun _ _ _ => FailsAs.options.andThen fun _ _ _ => ?_
  refine (FailsAs.ofExcept fun f hf => ?_).andThen fun _ _ _ => .done _
  exact .inl (attributionIn_fails hs hf)

theorem closeContent_fails (e : Element) (decoded : Decoded) {content : OpenContent}
    (below : Children) {group : GroupId} (hknown : content.attribution.IsKnown s group) :
    (s.closeContent id path e decoded content below).FailsAs o (Failure.EndsAttribution s) :=
  (FailsAs.ofExcept hknown.failure).andThen fun _ _ _ =>
    (FailsAs.reportAll hmode _).andThen fun _ _ _ => .done _

theorem closeElement_fails (t : Subtree) : (s.closeElement id t).FailsAs o Q := by
  unfold closeElement
  refine FailsAs.options.andThen fun _ _ _ => ?_
  split
  · exact .done _
  · exact (FailsAs.reportAll hmode _).andThen fun _ _ _ => .done _

theorem keepElement_fails (isMissed : Bool) (level : Nat) (e : Element) :
    (s.keepElement isMissed level path e).FailsAs o (Failure.ExceedsMarkup s.limits) :=
  (FailsAs.reportIf hmode _ _).andThen fun _ _ _ => FailsAs.options.andThen fun _ _ _ =>
    (FailsAs.ofExcept fun _ hf => decodeRaw_fails level path e hf).andThen fun _ _ _ => .done _

/-! ## Elements -/

mutual

theorem decodeElement_fails (hs : s.Built) {d : Document} : ∀ (id : ElementId) (level : Nat)
    (path : String) (e : Element), s.Visits d o id level path e →
      (s.decodeElement id level path e).FailsAs o (Failure.EndsPass s d o)
  | id, level, path, ⟨name, attributes, text, tail, children, scope⟩, hvisits => by
    rw [decodeElement_eq]
    refine (s.openElement_fails hmode id path hvisits).andThen fun opened ds hopen => ?_
    refine FailsAs.andThen ?_ fun t _ _ => closeElement_fails hmode id t
    obtain ⟨decoded, form⟩ := opened
    cases form with
    | children group isMixed =>
        have hgroup := (visitsGroup_of_form hvisits hopen rfl).stored hs
        refine ((s.openContent_fails hmode id path hs group isMixed _).imp fun _ => .model).andThen
          fun content ds' hcontent => ?_
        have hknown := attributionIn_known hs (mem_particles_of_stores hgroup)
          (openContent_ok hcontent).1
        refine (decodeChildren_fails hs (level + 1) _ _ children ?_).andThen fun below _ _ =>
          (s.closeContent_fails hmode id path _ decoded below hknown).imp fun _ => .model
        intro leaf path' e' hmem id' htreated
        exact .child hvisits hopen rfl hcontent hmem htreated
    | absent | empty | text | unfulfillable =>
        unfold contentOf
        exact decodeLeaf_fails hmode id path _ decoded _

theorem decodeChildren_fails (hs : s.Built) {d : Document} : ∀ (level : Nat)
    (leaves : List (Option Member)) (paths : List String) (es : List Element),
      (∀ leaf path e, (some leaf, path, e) ∈ leaves.zip (paths.zip es) →
        ∀ id, s.treatment leaf e.name = some (.declared id) → s.Visits d o id level path e) →
      (s.decodeChildren level leaves paths es).FailsAs o (Failure.EndsPass s d o)
  | level, leaf :: leaves, path :: paths, e :: rest, hvisits => by
    have hrest := decodeChildren_fails hs level leaves paths rest fun leaf' path' e' hmem =>
      hvisits leaf' path' e' (List.mem_cons_of_mem _ hmem)
    unfold decodeChildren
    split
    · exact hrest
    · rename_i treatment htreated
      refine FailsAs.options.andThen fun _ _ _ => ?_
      refine FailsAs.andThen ?_ fun _ _ _ => hrest.andThen fun _ _ _ => .done _
      split
      · exact .done _
      · cases treatment with
        | declared id =>
            obtain ⟨m, rfl, hm⟩ := Option.bind_eq_some_iff.1 htreated
            have hchild := hvisits m path e List.mem_cons_self id hm
            exact (decodeElement_fails hs id level path e hchild).map _
        | raw isMissed =>
            exact ((keepElement_fails hmode path isMissed level e).imp fun _ => .markup).map _
  | _, [], _, _ :: _, _ => .done _
  | _, _ :: _, [], _ :: _, _ => .done _
  | _, [], _, [], _ => .done _
  | _, _ :: _, [], [], _ => .done _
  | _, _ :: _, _ :: _, [], _ => .done _

end

theorem decodeDocument_fails (hs : s.Built) (d : Document) :
    (s.decodeDocument d).FailsAs o (Failure.EndsPass s d o) := by
  unfold decodeDocument
  split
  · exact (FailsAs.report hmode _).andThen fun _ _ _ => .done _
  · rename_i root hroot
    dsimp only
    split
    · exact (FailsAs.report hmode _).andThen fun _ _ _ => .done _
    · rename_i id hnamed
      exact (decodeElement_fails hmode hs id 0 _ root (.root hroot hnamed)).andThen
        fun _ _ _ => .done _

end Schema

/-- A root whose text is of a complex type. -/
def mistypedSample : Components :=
  let c := ((Components.empty .v10 .standard).builtin .string).2
  let c := (c.addLocalType (.complex (.ofContent .empty))).2
  let c := (c.addLocalType (.complex (.ofContent (.simple ⟨1⟩)))).2
  (c.addGlobalElement (Declaration.simple (.plain "r1") ⟨2⟩)).2

/-- A root with a text. -/
def mistypedDocument : Document :=
  ⟨some { Element.leaf (.plain "r1") with text := some "t" }⟩

theorem assembled_mistypedSample : mistypedSample.Assembled := by
  unfold mistypedSample
  exact .globalElement _ (.localType _ (.localType _ (.builtin _ (.empty ..))))

end Conform
