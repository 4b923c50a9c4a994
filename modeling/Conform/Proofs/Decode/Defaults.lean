import Conform.Proofs.Decode.Mirror
import Conform.Proofs.Identity.Defaults
/-!
# Passes with and without defaults

Whether a pass gives defaults changes its tree and nothing else. The defaults are recorded in any
case, and the tree with them is the one without them in which every element that has a declaration
gets those that are recorded for it.
-/

namespace Conform

/-- The options with defaults given or not. -/
abbrev Options.giving (o : Options) (b : Bool) : Options := { o with usesDefaults := b }

namespace Pass

variable {α β : Type}

/-! ## Parts that give no defaults -/

/-- A pass that takes no notice of whether defaults are given. -/
def IgnoresDefaults (p : Pass α) : Prop := ∀ (o : Options) (b : Bool), p (o.giving b) = p o

theorem IgnoresDefaults.stepwise {path : String} :
    Stepwise (fun o o' => ∃ b, o = o'.giving b) path @IgnoresDefaults where
  done _ _ _ := rfl
  ofExcept _ _ _ := rfl
  report _ _ _ := rfl
  andThen hp hf o b := by
    unfold Pass.andThen
    rw [hp o b]
    simp only [fun a => hf a o b]
  withOptions hsame hf o b := by
    rw [options_andThen, options_andThen, hsame ⟨b, rfl⟩]
    exact hf o o b

theorem IgnoresDefaults.reportAll : ∀ ds : List Diagnostic, (Pass.reportAll ds).IgnoresDefaults
  | [] => fun _ _ => rfl
  | d :: rest => (@IgnoresDefaults.stepwise d.path).andThen (fun _ _ => rfl) fun _ =>
      IgnoresDefaults.reportAll rest

/-! ## Parts that do -/

/-- With defaults, `q` gives what `p` gives without them, filled in by `fill`, and both report the
same or fail alike. -/
def Fills (fill : α → β) (p : Pass α) (q : Pass β) : Prop :=
  ∀ o : Options, q (o.giving true) = (p (o.giving false)).map fun r => (fill r.1, r.2)

variable {γ δ : Type} {fill : α → β} {p : Pass α} {q : Pass β}

theorem Fills.done {a : α} {b : β} (h : b = fill a) : Fills fill (Pass.done a) (Pass.done b) := by
  subst h
  exact fun _ => rfl

theorem IgnoresDefaults.fills {p : Pass α} (h : p.IgnoresDefaults) : Fills id p p := by
  intro o
  rw [h o true, h o false]
  cases p o <;> rfl

/-- What follows may count on what the first part leads to. -/
theorem Fills.andThen {Q : α → Prop} (h : Fills fill p q) (hp : p.Yields Q) {f : α → Pass γ}
    {g : β → Pass δ} {fill' : γ → δ} (hf : ∀ a, Q a → Fills fill' (f a) (g (fill a))) :
    Fills fill' (p.andThen f) (q.andThen g) := by
  intro o
  unfold Pass.andThen
  rw [h o]
  cases ha : p (o.giving false) with
  | error failure => rfl
  | ok r =>
      obtain ⟨a, ds⟩ := r
      simp only [Except.map, hf a (hp _ _ _ ha) o]
      cases f a (o.giving false) <;> rfl

theorem Yields.trivial (p : Pass α) : p.Yields fun _ => True := fun _ _ _ _ => True.intro

/-- One part that gives no defaults, and then others. -/
theorem Fills.after {p : Pass α} (h : p.IgnoresDefaults) {f : α → Pass γ}
    {g : α → Pass δ} {fill : γ → δ} (hf : ∀ a, Fills fill (f a) (g a)) :
    Fills fill (p.andThen f) (p.andThen g) :=
  h.fills.andThen (.trivial p) fun a _ => hf a

theorem Fills.withOptions {f : Options → Pass α} {g : Options → Pass β}
    (h : ∀ o : Options, Fills fill (f (o.giving false)) (g (o.giving true))) :
    Fills fill (Pass.options.andThen f) (Pass.options.andThen g) := by
  intro o
  rw [options_andThen, options_andThen]
  exact h o o

theorem Fills.ite {c : Prop} [Decidable c] {p p' : Pass α} {q q' : Pass β} (h : Fills fill p q)
    (h' : Fills fill p' q') : Fills fill (if c then p else p') (if c then q else q') := by
  split
  · exact h
  · exact h'

theorem Fills.map {fill' : γ → δ} (h : Fills fill p q) {f : α → γ} {g : β → δ}
    (hf : ∀ a, g (fill a) = fill' (f a)) : Fills fill' (f <$> p) (g <$> q) :=
  h.andThen (.trivial p) fun a _ => .done (hf a)

end Pass

/-! ## What is filled in -/

namespace Decoded

variable {d : Decoded} {id : ElementId}

/-- The default of a text is filled in apart from those of attributes. -/
theorem withDefaults_text (h : d.declaration = some id) (text default : Option Json) :
    { d with text, defaultValue := default }.withDefaults =
      { d.withDefaults with text := text.or default, defaultValue := default } := by
  obtain ⟨tag, path, attributes, _, children, isNil, declaration, defaults, _⟩ := d
  cases h
  rfl

/-- Without a default the text stays as it is. -/
theorem withDefaults_content (h : d.declaration = some id) (hdefault : d.defaultValue = none)
    (text : Option Json) (children : List Decoded) :
    { d with text, children }.withDefaults =
      { d.withDefaults with text, children := children.map withDefaults } := by
  obtain ⟨tag, path, attributes, _, _, isNil, declaration, defaults, default⟩ := d
  cases h
  cases hdefault
  rw [withDefaults, withDefaultsAll_eq_map]
  show Decoded.mk _ _ _ (text.or none) _ _ _ _ _ = _
  rw [Option.or_none]
  rfl

end Decoded

/-- The attributes with the defaults behind them. -/
def DecodedAttributes.filled (v : DecodedAttributes) : DecodedAttributes :=
  { v with attributes := v.attributes.followedBy v.defaults }

/-- The default in place of a text that is missing. -/
def DecodedText.filled (t : DecodedText) : DecodedText := { t with text := t.text.or t.default }

def Opened.withDefaults (opened : Opened) : Opened :=
  { opened with decoded := opened.decoded.withDefaults }

def Subtree.withDefaults (t : Subtree) : Subtree := { t with element := t.element.withDefaults }

def Children.withDefaults (below : Children) : Children :=
  { below with elements := below.elements.map Decoded.withDefaults }

theorem Children.withDefaults_append (a b : Children) :
    (a ++ b).withDefaults = a.withDefaults ++ b.withDefaults := by
  show Children.mk (List.map _ (a.elements ++ b.elements)) _ _ = Children.mk _ _ _
  rw [List.map_append]
  rfl

mutual

/-- No element that is kept without a declaration has defaults. -/
theorem decodeRaw_withDefaults {limits : Limits} {o : Options} : ∀ {level : Nat} {path : String}
    {e : Element} {d : Decoded}, decodeRaw limits o level path e = .ok d → d.withDefaults = d
  | level, path, ⟨name, attributes, text, tail, children, scope⟩, d, h => by
    unfold decodeRaw at h
    split at h
    · cases h
    obtain ⟨hundeclared, hchildren⟩ : d.declaration = none ∧
        d.children.map Decoded.withDefaults = d.children := by
      dsimp only at h
      split at h
      · cases h
        exact ⟨rfl, rfl⟩
      · split at h
        · cases h
        rename_i ds hds
        cases h
        exact ⟨rfl, decodeRawAll_withDefaults hds⟩
    rw [Decoded.withDefaults_eq, hundeclared, if_neg (by simp)]
    exact Decoded.eq_of_children hchildren

theorem decodeRawAll_withDefaults {limits : Limits} {o : Options} : ∀ {level : Nat}
    {paths : List String} {es : List Element} {ds : List Decoded},
      decodeRawAll limits o level paths es = .ok ds → ds.map Decoded.withDefaults = ds
  | level, path :: paths, e :: rest, ds, h => by
    unfold decodeRawAll at h
    split at h
    · cases h
    rename_i d hd
    split at h
    · cases h
    rename_i more hmore
    cases h
    rw [List.map_cons, decodeRaw_withDefaults hd, decodeRawAll_withDefaults hmore]
  | _, [], _ :: _, _, h => by
    cases h
    rfl
  | _, [], [], _, h => by
    cases h
    rfl
  | _, _ :: _, [], _, h => by
    cases h
    rfl

end

namespace Schema

open Pass

variable (s : Schema) (id : ElementId) (level : Nat) (path : String)

/-! ## Attributes and text -/

/-- Only attributes of the document are decoded. -/
theorem keys_decodeAttributes (type : Option ComplexType) (e : Element) :
    ∀ (entries : List (QName × String)) (decoded : Listing QName Json),
      (s.decodeAttributes id path type e entries decoded).Yields fun l =>
        ∀ k ∈ l.keys, k ∈ decoded.keys ∨ k ∈ entries.map Prod.fst
  | [], decoded => .done fun _ => .inl
  | (name, written) :: rest, decoded => by
    have hskip : (s.decodeAttributes id path type e rest decoded).Yields fun l =>
        ∀ k ∈ l.keys, k ∈ decoded.keys ∨ k ∈ name :: rest.map Prod.fst := fun o l ds h k hk =>
      (keys_decodeAttributes type e rest decoded o l ds h k hk).imp_right (List.mem_cons_of_mem _)
    unfold decodeAttributes
    split
    · exact hskip
    · refine .after fun value => ?_
      cases value with
      | none => exact hskip
      | some value =>
          intro o l ds h k hk
          rcases keys_decodeAttributes type e rest _ o l ds h k hk with hkey | hkey
          · rw [Listing.keys_insert] at hkey
            split at hkey
            · exact .inl hkey
            · rcases List.mem_append.1 hkey with hkey | hkey
              · exact .inl hkey
              · exact .inr (List.mem_cons.2 (.inl (List.mem_singleton.1 hkey)))
          · exact .inr (List.mem_cons_of_mem _ hkey)

/-- The defaults come behind the attributes of the document. -/
theorem attributesOf_fills (type : TypeDefinition) (e : Element) :
    Fills DecodedAttributes.filled (s.attributesOf id path type e)
      (s.attributesOf id path type e) := by
  refine (IgnoresDefaults.stepwise.tagwise.decodeAttributes s id _ e _ _).fills.andThen
    (s.keys_decodeAttributes id path _ e _ _) fun written hwritten => ?_
  have hmissing : (s.missingAttributes id path e
      ((type.asComplex?.map (·.attributes.values)).getD [])).Yields fun defaults =>
        ∀ d ∈ defaults, d.1 ∉ e.attributes.keys :=
    fun _ _ _ h d hd => (missingAttributes_ok h d hd).1
  refine (IgnoresDefaults.stepwise.tagwise.missingAttributes s id e _).fills.andThen hmissing
    fun defaults hdefaults => .withOptions fun o => .done ?_
  have hnew : ∀ d ∈ defaults, d.1 ∉ written.keys := fun d hd hk =>
    (hwritten _ hk).elim List.not_mem_nil (hdefaults d hd)
  exact congrArg (DecodedAttributes.mk · _) (Listing.foldl_insert_eq written hnew)

theorem simpleContent_fills (t : SimpleType) (e : Element) :
    Fills DecodedText.filled (s.simpleContent id path t e) (s.simpleContent id path t e) := by
  refine .after (IgnoresDefaults.stepwise.reportIf _ ⟨by nofun, rfl⟩) fun _ => .withOptions fun o =>
    .ite (.done rfl) ?_
  exact .after (IgnoresDefaults.stepwise.textValue s id t e _ _) fun _ => .done rfl

/-! ## Elements -/

theorem openElement_fills (e : Element) :
    Fills Opened.withDefaults (s.openElement id level path e) (s.openElement id level path e) := by
  have hparts := @IgnoresDefaults.stepwise path
  refine .after (hparts.ofExcept (blameless_checkMarkupDepth _ _)) fun _ => ?_
  refine .after (hparts.tagwise.typeOf s id e) fun t => ?_
  refine .after (hparts.tagwise.nilOf s id e) fun isNil => ?_
  refine (s.attributesOf_fills id path (s.type t) e).andThen (.trivial _) fun values _ => ?_
  dsimp only
  split
  · exact .after (hparts.done _) fun _ => .done rfl
  · exact .after (hparts.ofExcept (blameless_formOf s _)) fun _ => .done rfl

/-- An element that is opened has a declaration, and nothing is known of its content. -/
theorem openElement_blank (e : Element) : (s.openElement id level path e).Yields fun opened =>
    opened.decoded.declaration = some id ∧ opened.decoded.defaultValue = none := by
  intro o opened ds h
  obtain ⟨_, _, _, -, -, -, hdecoded, -⟩ := openElement_ok h
  rw [hdecoded]
  exact ⟨rfl, rfl⟩

variable {s id level path}

theorem decodeLeaf_fills {e : Element} {decoded : Decoded} {form : Form}
    (hdeclared : decoded.declaration = some id) :
    Fills Subtree.withDefaults (s.decodeLeaf id path e decoded form)
      (s.decodeLeaf id path e decoded.withDefaults form) := by
  unfold decodeLeaf
  cases form with
  | absent | children => exact .done rfl
  | empty => exact .after (IgnoresDefaults.stepwise.reportIf _ ⟨by nofun, rfl⟩) fun _ => .done rfl
  | unfulfillable =>
      exact .after (IgnoresDefaults.stepwise.report ⟨by nofun, rfl⟩) fun _ => .done rfl
  | text t =>
      refine Fills.andThen (s.simpleContent_fills id path t e) (.trivial _) fun text _ => .done ?_
      exact congrArg (Subtree.mk · _ _) (Decoded.withDefaults_text hdeclared ..).symm

/-- Content with children has no default. -/
theorem closeContent_fills {e : Element} {decoded : Decoded}
    (hdeclared : decoded.declaration = some id) (hdefault : decoded.defaultValue = none)
    (content : OpenContent) (below : Children) :
    Fills Subtree.withDefaults (s.closeContent id path e decoded content below)
      (s.closeContent id path e decoded.withDefaults content below.withDefaults) := by
  refine .after (fun _ _ => rfl : (Pass.ofExcept content.attribution.issues).IgnoresDefaults)
    fun issues => ?_
  refine .after (.reportAll _) fun _ => .done ?_
  exact congrArg (Subtree.mk · _ _) (Decoded.withDefaults_content hdeclared hdefault ..).symm

/-- Identity constraints find the same. -/
theorem closeElement_fills (t : Subtree) : Fills Subtree.withDefaults (s.closeElement id t)
    (s.closeElement id t.withDefaults) := by
  refine .withOptions fun o => ?_
  refine .ite (.done rfl) ?_
  rw [show t.withDefaults.element = t.element.withDefaults from rfl, checkScope_withDefaults]
  exact .after (.reportAll _) fun _ => .done rfl

/-- What has no declaration has no defaults. -/
theorem keepElement_fills (isMissed : Bool) (e : Element) :
    Fills Subtree.withDefaults (s.keepElement isMissed level path e)
      (s.keepElement isMissed level path e) := by
  have hdepth : ∀ {o o' : Options}, (∃ b, o = o'.giving b) → o.maxDepth = o'.maxDepth := by
    rintro _ o ⟨b, rfl⟩
    rfl
  have hkept : (s.keepElement isMissed level path e).Yields fun t => t.withDefaults = t := by
    refine .after fun _ => .after fun o => ?_
    intro _ t ds h
    obtain ⟨d, _, _, hraw, hdone, -⟩ := ok_of_andThen h
    cases hdone
    exact congrArg (Subtree.mk · _ _) (decodeRaw_withDefaults (ok_of_ofExcept hraw).1)
  intro o
  have hsame := (@IgnoresDefaults.stepwise path).keepElement hdepth s isMissed level e
  rw [hsame o true, ← hsame o false]
  cases hrun : s.keepElement isMissed level path e (o.giving false) with
  | error f => rfl
  | ok r => exact congrArg (fun t => Except.ok (t, r.2)) (hkept _ _ _ hrun).symm

mutual

theorem decodeElement_fills : ∀ (id : ElementId) (level : Nat) (path : String) (e : Element),
    Fills Subtree.withDefaults (s.decodeElement id level path e) (s.decodeElement id level path e)
  | id, level, path, ⟨name, attributes, text, tail, children, scope⟩ => by
    rw [decodeElement_eq]
    generalize he : Element.mk name attributes text tail children scope = e
    refine (s.openElement_fills id level path e).andThen (s.openElement_blank id level path e)
      fun opened hopened => ?_
    obtain ⟨hdeclared, hdefault⟩ := hopened
    refine Fills.andThen ?_ (.trivial _) fun t _ => closeElement_fills t
    obtain ⟨decoded, form⟩ := opened
    cases form with
    | children group isMixed =>
        have hskip : ∀ {o o' : Options}, (∃ b, o = o'.giving b) → o.isSkip = o'.isSkip := by
          rintro _ o ⟨b, rfl⟩
          rfl
        subst he
        refine .after (IgnoresDefaults.stepwise.openContent s id group isMixed _ hskip
          fun _ _ _ _ => rfl) fun content => ?_
        refine (decodeChildren_fills (level + 1) content.attribution.leaves _ children).andThen
          (.trivial _) fun below _ => ?_
        exact closeContent_fills hdeclared hdefault content below
    | absent | empty | text | unfulfillable =>
        unfold contentOf
        exact decodeLeaf_fills hdeclared

theorem decodeChildren_fills : ∀ (level : Nat) (leaves : List (Option Member))
    (paths : List String) (es : List Element),
      Fills Children.withDefaults (s.decodeChildren level leaves paths es)
        (s.decodeChildren level leaves paths es)
  | level, leaf :: leaves, path :: paths, e :: rest => by
    unfold decodeChildren
    split
    · exact decodeChildren_fills level leaves paths rest
    · rename_i treatment _
      refine .withOptions fun o => ?_
      dsimp only [bind_eq_andThen]
      have htruncated : Children.truncated = Children.truncated.withDefaults := rfl
      refine Fills.andThen (.ite (.done htruncated) ?_) (.trivial _) fun here _ =>
        (decodeChildren_fills level leaves paths rest).andThen (.trivial _) fun after _ =>
          .done (here.withDefaults_append after).symm
      cases treatment with
      | declared id => exact (decodeElement_fills id level path e).map fun _ => rfl
      | raw isMissed => exact (keepElement_fills isMissed e).map fun _ => rfl
  | _, [], _, _ :: _ => .done rfl
  | _, _ :: _, [], _ :: _ => .done rfl
  | _, [], _, [] => .done rfl
  | _, _ :: _, [], [] => .done rfl
  | _, _ :: _, _ :: _, [] => .done rfl

end

/-! ## Documents -/

end Schema

end Conform
