import Conform.Proofs.Decode.Parts
import Conform.Proofs.Identity.References
import Conform.Proofs.Schema.Sample
/-!
# Passes with a bound on the depth

A bound on the depth leaves out the elements from its level on. What is above them is decoded as it
is without a bound: no part of an element depends on what becomes of its children. Diagnostics are
lost with the elements that are left out, and others only appear where an identity constraint is
checked on a tree that lacks something.
-/

namespace Conform

/-- The options with a bound on the depth. -/
abbrev Options.toDepth (o : Options) (n : Nat) : Options := { o with maxDepth := some n }

/-! ## Trees up to a level -/

namespace Decoded

mutual

/-- The tree of an element at a level, without its descendants at level `n` and below. -/
def prune (n level : Nat) : Decoded → Decoded
  | d@⟨_, _, _, _, children, _, _, _, _⟩ =>
    { d with children := if n ≤ level + 1 then [] else pruneAll n (level + 1) children }

/-- The trees of elements at a level, without their descendants at level `n` and below. -/
def pruneAll (n level : Nat) : List Decoded → List Decoded
  | [] => []
  | d :: rest => d.prune n level :: pruneAll n level rest

end

mutual

/-- The element and its descendants in document order, each with its level and without its
children. -/
def outline (level : Nat) : Decoded → List (Nat × Decoded)
  | d@⟨_, _, _, _, children, _, _, _, _⟩ =>
    (level, { d with children := [] }) :: outlineAll (level + 1) children

/-- The elements of trees in document order. -/
def outlineAll (level : Nat) : List Decoded → List (Nat × Decoded)
  | [] => []
  | d :: rest => outline level d ++ outlineAll level rest

end

mutual

/-- Whether the bound `n` leaves out something below an element without a declaration, in the tree of
an element at a level. -/
def isClipped (n level : Nat) : Decoded → Bool
  | ⟨_, _, _, _, children, _, declaration, _, _⟩ =>
    if n ≤ level + 1 then declaration.isNone && !children.isEmpty
    else isClippedAny n (level + 1) children

/-- Whether this is so in one of some trees. -/
def isClippedAny (n level : Nat) : List Decoded → Bool
  | [] => false
  | d :: rest => d.isClipped n level || isClippedAny n level rest

end

variable {n level : Nat}

theorem isClippedAny_append (ds es : List Decoded) :
    isClippedAny n level (ds ++ es) = (isClippedAny n level ds || isClippedAny n level es) := by
  induction ds with
  | nil => rfl
  | cons d ds ih => rw [List.cons_append, isClippedAny, isClippedAny, ih, Bool.or_assoc]

theorem isClipped_of_lt (h : level + 1 < n) (d : Decoded) :
    d.isClipped n level = isClippedAny n (level + 1) d.children := by
  obtain ⟨tag, path, attributes, text, children, isNil, declaration, defaults, default⟩ := d
  rw [isClipped, if_neg (Nat.not_le.2 h)]

theorem isClipped_of_le (h : n ≤ level + 1) (d : Decoded) :
    d.isClipped n level = (d.declaration.isNone && !d.children.isEmpty) := by
  obtain ⟨tag, path, attributes, text, children, isNil, declaration, defaults, default⟩ := d
  rw [isClipped, if_pos h]

theorem pruneAll_append (ds es : List Decoded) :
    pruneAll n level (ds ++ es) = pruneAll n level ds ++ pruneAll n level es := by
  induction ds with
  | nil => rfl
  | cons d ds ih => rw [List.cons_append, pruneAll, pruneAll, ih, List.cons_append]

theorem prune_of_le (h : n ≤ level + 1) (d : Decoded) :
    d.prune n level = { d with children := [] } := by
  obtain ⟨tag, path, attributes, text, children, isNil, declaration, defaults, default⟩ := d
  rw [prune, if_pos h]

theorem prune_of_lt (h : level + 1 < n) (d : Decoded) :
    d.prune n level = { d with children := pruneAll n (level + 1) d.children } := by
  obtain ⟨tag, path, attributes, text, children, isNil, declaration, defaults, default⟩ := d
  rw [prune, if_neg (Nat.not_le.2 h)]

theorem prune_of_children_nil {d : Decoded} (h : d.children = []) : d.prune n level = d := by
  obtain ⟨tag, path, attributes, text, children, isNil, declaration, defaults, default⟩ := d
  obtain rfl : children = [] := h
  rw [prune]
  split <;> rfl

mutual

theorem le_of_mem_outline : ∀ {level : Nat} {d : Decoded} {e : Nat × Decoded},
    e ∈ d.outline level → level ≤ e.1
  | level, ⟨_, _, _, _, children, _, _, _, _⟩, e, h => by
    rw [outline] at h
    rcases List.mem_cons.1 h with rfl | h
    · exact Nat.le_refl _
    · exact Nat.le_trans (Nat.le_succ level) (le_of_mem_outlineAll h)

theorem le_of_mem_outlineAll : ∀ {level : Nat} {ds : List Decoded} {e : Nat × Decoded},
    e ∈ outlineAll level ds → level ≤ e.1
  | level, d :: rest, e, h => by
    rw [outlineAll] at h
    rcases List.mem_append.1 h with h | h
    · exact le_of_mem_outline h
    · exact le_of_mem_outlineAll h

end

/-- Nothing of trees at a level is above that level. -/
theorem filter_outlineAll_eq_nil (h : n ≤ level) (ds : List Decoded) :
    (outlineAll level ds).filter (fun e => e.1 < n) = [] := by
  rw [List.filter_eq_nil_iff]
  intro e he
  have hle := le_of_mem_outlineAll he
  simp only [decide_eq_true_eq]
  omega

mutual

/-- What is left of a tree above the bound are the elements above the bound. -/
theorem outline_prune : ∀ {level : Nat} (d : Decoded), level < n →
    (d.prune n level).outline level = (d.outline level).filter fun e => e.1 < n
  | level, ⟨_, _, _, _, children, _, _, _, _⟩, h => by
    rw [prune, outline, outline, List.filter_cons_of_pos (by simpa using h)]
    refine congrArg _ ?_
    split
    · rename_i hle
      exact (filter_outlineAll_eq_nil hle children).symm
    · exact outlineAll_pruneAll children (by omega)

theorem outlineAll_pruneAll : ∀ {level : Nat} (ds : List Decoded), level < n →
    outlineAll level (pruneAll n level ds) = (outlineAll level ds).filter fun e => e.1 < n
  | _, [], _ => rfl
  | level, d :: rest, h => by
    rw [pruneAll, outlineAll, outlineAll, List.filter_append, outline_prune d h,
      outlineAll_pruneAll rest h]

end

/-- The root of a tree is left under every bound. -/
theorem outline_prune_root (n : Nat) (d : Decoded) :
    (d.prune n 0).outline 0 = (d.outline 0).filter fun e => e.1 = 0 ∨ e.1 < n := by
  have hbelow : ∀ e ∈ outlineAll 1 d.children,
      decide (e.1 = 0 ∨ e.1 < n) = decide (e.1 < n) := by
    intro e he
    have hle := le_of_mem_outlineAll he
    exact decide_eq_decide.2 (or_iff_right (by omega))
  obtain ⟨tag, path, attributes, text, children, isNil, declaration, defaults, default⟩ := d
  rw [prune, outline, outline, List.filter_cons_of_pos (by simp), List.filter_congr hbelow]
  refine congrArg _ ?_
  split
  · rename_i hle
    exact (filter_outlineAll_eq_nil hle children).symm
  · exact outlineAll_pruneAll children (by omega)

end Decoded

namespace Schema

mutual

/-- Whether, in the tree of an element at a level, the bound `n` leaves all that stands below
undeclared elements in elements that declare constraints. -/
def spares (s : Schema) (n level : Nat) : Decoded → Bool
  | d@⟨_, _, _, _, children, _, declaration, _, _⟩ =>
    (declaration.all fun id => (s.element id).identities.isEmpty || !d.isClipped n level) &&
      s.sparesAll n (level + 1) children

/-- Whether this is so in all of some trees. -/
def sparesAll (s : Schema) (n level : Nat) : List Decoded → Bool
  | [] => true
  | d :: rest => s.spares n level d && s.sparesAll n level rest

end

theorem sparesAll_append (s : Schema) (n level : Nat) (ds es : List Decoded) :
    s.sparesAll n level (ds ++ es) = (s.sparesAll n level ds && s.sparesAll n level es) := by
  induction ds with
  | nil => rfl
  | cons d ds ih => rw [List.cons_append, sparesAll, sparesAll, ih, Bool.and_assoc]

theorem spares_eq (s : Schema) (n level : Nat) (d : Decoded) : s.spares n level d =
    ((d.declaration.all fun id => (s.element id).identities.isEmpty || !d.isClipped n level) &&
      s.sparesAll n (level + 1) d.children) := by
  obtain ⟨tag, path, attributes, text, children, isNil, declaration, defaults, default⟩ := d
  rw [spares]

end Schema

/-! ## Parts -/

namespace Pass

/-- A pass that takes no notice of the bound on the depth. -/
def IgnoresDepth {α : Type} (p : Pass α) : Prop := ∀ (o : Options) (n : Nat), p (o.toDepth n) = p o

/-- What belongs to an element alone takes no notice of the bound. -/
theorem IgnoresDepth.modular {path : String} :
    Modular (fun o o' => ∃ n, o = o'.toDepth n) path @IgnoresDepth where
  usesDefaults := by
    rintro _ o ⟨n, rfl⟩
    rfl
  done _ _ _ := rfl
  ofExcept _ _ _ := rfl
  report _ _ _ := rfl
  andThen hp hf o n := by
    unfold Pass.andThen
    rw [hp o n]
    simp only [fun a => hf a o n]
  withOptions hsame hf o n := by
    rw [options_andThen, options_andThen, hsame ⟨n, rfl⟩]
    exact hf o o n

end Pass

/-- Above a bound nothing is too deep for a greater bound. -/
theorem Options.isTooDeep_of_lt {n level : Nat} (o : Options) (h : ∀ k ∈ o.maxDepth, n ≤ k)
    (hlt : level < n) : o.isTooDeep level = false := by
  unfold Options.isTooDeep
  cases hmax : o.maxDepth with
  | none => rfl
  | some k =>
      have hle : n ≤ k := h k hmax
      simpa using Nat.lt_of_lt_of_le hlt hle

mutual

theorem decodeRaw_prune {limits : Limits} {o : Options} {n : Nat}
    (hdepth : ∀ k ∈ o.maxDepth, n ≤ k) : ∀ {level : Nat} {path : String} {e : Element} {d : Decoded},
      decodeRaw limits o level path e = .ok d →
        decodeRaw limits (o.toDepth n) level path e = .ok (d.prune n level)
  | level, path, ⟨_, _, _, _, children, _⟩, d, h => by
    unfold decodeRaw at h ⊢
    split at h
    · cases h
    dsimp only at h ⊢
    by_cases hle : n ≤ level + 1
    · rw [if_pos (by simpa [Options.isTooDeep] using hle), Decoded.prune_of_le hle]
      split at h
      · cases h
        rfl
      · split at h <;> cases h
        rfl
    · rw [if_neg (by simpa [Options.isTooDeep] using hle)]
      rw [o.isTooDeep_of_lt hdepth (Nat.not_le.1 hle), if_neg (by simp)] at h
      split at h
      · cases h
      rename_i ds hchildren
      cases h
      rw [decodeRawAll_prune hdepth hchildren, Decoded.prune_of_lt (Nat.not_le.1 hle)]

theorem decodeRawAll_prune {limits : Limits} {o : Options} {n : Nat}
    (hdepth : ∀ k ∈ o.maxDepth, n ≤ k) : ∀ {level : Nat} {paths : List String} {es : List Element} {ds : List Decoded},
      decodeRawAll limits o level paths es = .ok ds →
        decodeRawAll limits (o.toDepth n) level paths es = .ok (Decoded.pruneAll n level ds)
  | level, path :: paths, e :: rest, ds, h => by
    unfold decodeRawAll at h ⊢
    split at h
    · cases h
    rename_i d hd
    split at h
    · cases h
    rename_i more hmore
    cases h
    rw [decodeRaw_prune hdepth hd, decodeRawAll_prune hdepth hmore]
    rfl
  | _, [], _ :: _, _, h => by
    cases h
    rfl
  | _, [], [], _, h => by
    cases h
    rfl
  | _, _ :: _, [], _, h => by
    cases h
    rfl

end

mutual

/-- Without a declaration nothing is left out but what counts as clipped. -/
theorem decodeRaw_whole {limits : Limits} {o : Options} {n : Nat} : ∀ {level : Nat}
    {path : String} {e : Element} {d : Decoded}, decodeRaw limits o level path e = .ok d →
      d.isClipped n level = false → d.prune n level = d
  | level, path, ⟨name, attributes, text, tail, children, scope⟩, d, h, hwhole => by
    unfold decodeRaw at h
    split at h
    · cases h
    obtain ⟨hundeclared, hds⟩ : d.declaration = none ∧ (d.children = [] ∨
        decodeRawAll limits o (level + 1)
          (Element.childPaths ⟨name, attributes, text, tail, children, scope⟩ path) children =
            .ok d.children) := by
      dsimp only at h
      split at h
      · cases h
        exact ⟨rfl, .inl rfl⟩
      · split at h <;> cases h
        exact ⟨rfl, .inr (by assumption)⟩
    by_cases hle : n ≤ level + 1
    · rw [Decoded.isClipped_of_le hle, hundeclared] at hwhole
      exact Decoded.prune_of_children_nil (by simpa using hwhole)
    · rw [Decoded.isClipped_of_lt (Nat.not_le.1 hle)] at hwhole
      rcases hds with hnone | hds
      · exact Decoded.prune_of_children_nil hnone
      · rw [Decoded.prune_of_lt (Nat.not_le.1 hle), decodeRawAll_whole hds hwhole]
        exact Decoded.eq_of_children rfl

theorem decodeRawAll_whole {limits : Limits} {o : Options} {n : Nat} : ∀ {level : Nat}
    {paths : List String} {es : List Element} {ds : List Decoded},
      decodeRawAll limits o level paths es = .ok ds → Decoded.isClippedAny n level ds = false →
        Decoded.pruneAll n level ds = ds
  | level, path :: paths, e :: rest, ds, h, hwhole => by
    unfold decodeRawAll at h
    split at h
    · cases h
    rename_i d hd
    split at h
    · cases h
    rename_i more hmore
    cases h
    rw [Decoded.isClippedAny, Bool.or_eq_false_iff] at hwhole
    rw [Decoded.pruneAll, decodeRaw_whole hd hwhole.1, decodeRawAll_whole hmore hwhole.2]
  | _, [], _ :: _, _, h, _ => by
    cases h
    rfl
  | _, [], [], _, h, _ => by
    cases h
    rfl
  | _, _ :: _, [], _, h, _ => by
    cases h
    rfl

end

/-! ## What is lost with the elements -/

/-- The diagnostics that are not about identity constraints. -/
def besidesIdentity (ds : List Diagnostic) : List Diagnostic :=
  ds.filter fun d => d.kind != .identity

theorem besidesIdentity_append (ds es : List Diagnostic) :
    besidesIdentity (ds ++ es) = besidesIdentity ds ++ besidesIdentity es :=
  List.filter_append ..

/-- What becomes of children at a level and their diagnostics under the bound `n`: nothing is left
out unnoticed but what counts as clipped, and diagnostics are only lost, but for those of constraints
that are checked on clipped trees. -/
structure Shortens (s : Schema) (n level : Nat) (below : Children) (ds : List Diagnostic)
    (below' : Children) (es : List Diagnostic) : Prop where
  whole : below'.isTruncated = false → below.isTruncated = false ∧
    (Decoded.isClippedAny n level below.elements = false → below'.elements = below.elements)
  sublist : s.sparesAll n level below.elements = true → es.Sublist ds
  others : (besidesIdentity es).Sublist (besidesIdentity ds)

namespace Shortens

variable {s : Schema} {n level : Nat}

theorem nothing : Shortens s n level .nothing [] .nothing [] :=
  ⟨fun _ => ⟨rfl, fun _ => rfl⟩, fun _ => List.Sublist.refl [], List.Sublist.refl []⟩

theorem append {a b a' b' : Children} {ds es fs gs : List Diagnostic}
    (h : Shortens s n level a ds a' es) (h' : Shortens s n level b fs b' gs) :
    Shortens s n level (a ++ b) (ds ++ fs) (a' ++ b') (es ++ gs) := by
  constructor
  · intro hnone
    obtain ⟨ha, hb⟩ := Bool.or_eq_false_iff.1 (show (a'.isTruncated || b'.isTruncated) = false from hnone)
    obtain ⟨hfirst, hsame⟩ := h.whole ha
    obtain ⟨hsecond, hsame'⟩ := h'.whole hb
    refine ⟨Bool.or_eq_false_iff.2 ⟨hfirst, hsecond⟩, fun hclipped => ?_⟩
    have hboth : Decoded.isClippedAny n level (a.elements ++ b.elements) = false := hclipped
    rw [Decoded.isClippedAny_append, Bool.or_eq_false_iff] at hboth
    exact congrArg₂ _ (hsame hboth.1) (hsame' hboth.2)
  · intro hspares
    have hboth : s.sparesAll n level (a.elements ++ b.elements) = true := hspares
    rw [Schema.sparesAll_append, Bool.and_eq_true] at hboth
    exact (h.sublist hboth.1).append (h'.sublist hboth.2)
  · rw [besidesIdentity_append, besidesIdentity_append]
    exact h.others.append h'.others

theorem ofSubtree {t u : Subtree} {ds es : List Diagnostic}
    (hwhole : u.isTruncated = false → t.isTruncated = false ∧
      (t.element.isClipped n level = false → u.element = t.element))
    (hsublist : s.spares n level t.element = true → es.Sublist ds)
    (hothers : (besidesIdentity es).Sublist (besidesIdentity ds)) :
    Shortens s n level (.ofSubtree t) ds (.ofSubtree u) es := by
  refine ⟨fun hnone => ?_, fun hspares => hsublist ?_, hothers⟩
  · obtain ⟨ht, hsame⟩ := hwhole hnone
    refine ⟨ht, fun hclipped => congrArg (· :: []) (hsame ?_)⟩
    simpa [Children.ofSubtree, Decoded.isClippedAny] using hclipped
  · simpa [Children.ofSubtree, Schema.sparesAll] using hspares

end Shortens

namespace Schema

open Pass

variable {s : Schema} {o : Options}

theorem keepElement_prune {n : Nat} (hdepth : ∀ k ∈ o.maxDepth, n ≤ k) {isMissed : Bool}
    {level : Nat} {path : String} {e : Element} {t : Subtree} {ds : List Diagnostic}
    (h : s.keepElement isMissed level path e o = .ok (t, ds)) :
    s.keepElement isMissed level path e (o.toDepth n) =
        .ok ({ t with element := t.element.prune n level }, ds) ∧
      (t.element.isClipped n level = false → t.element.prune n level = t.element) := by
  unfold keepElement at h ⊢
  obtain ⟨_, ds₁, _, hreport, hrest, rfl⟩ := ok_of_andThen h
  obtain ⟨_, ds₂, _, hoptions, hrest', rfl⟩ := ok_of_andThen hrest
  obtain ⟨d, ds₃, _, hraw, hdone, rfl⟩ := ok_of_andThen hrest'
  cases hoptions
  cases hdone
  obtain ⟨hd, rfl⟩ := ok_of_ofExcept hraw
  have hreport' := IgnoresDepth.modular.reportIf isMissed
    (d := .error (.undeclaredElement e.tag) path) ⟨nofun, rfl⟩ o n
  rw [hreport] at hreport'
  refine ⟨andThen_of_ok hreport' (andThen_of_ok rfl (andThen_of_ok ?_ rfl)), decodeRaw_whole hd⟩
  unfold Pass.ofExcept
  rw [decodeRaw_prune hdepth hd]
  rfl

/-- The issues of a content do not hang on what is decoded of the children. -/
theorem closeContent_toDepth {id : ElementId} {path : String} {e : Element} {decoded : Decoded}
    {content : OpenContent} {below : Children} {t : Subtree} {ds : List Diagnostic}
    (h : s.closeContent id path e decoded content below o = .ok (t, ds)) (below' : Children)
    (n : Nat) : s.closeContent id path e decoded content below' (o.toDepth n) =
      .ok (⟨{ t.element with children := below'.elements }, below'.held, below'.isTruncated⟩, ds) := by
  unfold closeContent at h ⊢
  obtain ⟨issues, ds₁, _, hissues, hrest, rfl⟩ := ok_of_andThen h
  obtain ⟨_, ds₂, _, hreport, hdone, rfl⟩ := ok_of_andThen hrest
  cases hdone
  have hreport' : Pass.reportAll (issues.map fun i => .errorAt (.children (s.childrenFault e i))
      path id) (o.toDepth n) = .ok ((), ds₂) := by
    rw [(@IgnoresDepth.modular path).reportAll ?_ o n]
    · exact hreport
    · intro d hd
      obtain ⟨i, -, rfl⟩ := List.mem_map.1 hd
      exact ⟨nofun, rfl⟩
  exact andThen_of_ok hissues (andThen_of_ok hreport' rfl)

/-- Under a bound references are not looked up, so that an element of which nothing is left out has
some of its problems and no others. -/
theorem checkScope_sublist (s : Schema) (policy : AbsentKeyPolicy) (resolves : Bool)
    (ids : List IdentityId) (scope : Decoded) (below below' : HeldTuples) :
    (s.checkScope policy false ids scope below').problems.Sublist
      (s.checkScope policy resolves ids scope below).problems := by
  unfold checkScope
  dsimp only
  rw [if_neg (by simp), List.append_nil]
  exact List.sublist_append_left ..

/-- The check of identity constraints ends no pass that is not strict. -/
theorem closeElement_toDepth (hmode : o.mode ≠ .strict) {n : Nat} {id : ElementId} {t u : Subtree}
    {ds : List Diagnostic} (h : s.closeElement id t o = .ok (u, ds)) (t' : Subtree) :
    ∃ u' es, s.closeElement id t' (o.toDepth n) = .ok (u', es) ∧ u'.element = t'.element ∧
      u'.isTruncated = t'.isTruncated ∧ u.isTruncated = t.isTruncated ∧
      besidesIdentity es = [] ∧ ((t'.isTruncated = false → t.isTruncated = false ∧
        ((s.element id).identities = [] ∨ t'.element = t.element)) → es.Sublist ds) := by
  unfold closeElement at h ⊢
  rw [bind_eq_andThen, options_andThen] at h ⊢
  split
  · rename_i hno
    refine ⟨t', [], rfl, rfl, rfl, ?_, rfl, fun _ => List.nil_sublist ds⟩
    split at h
    · cases h
      rfl
    · obtain ⟨_, _, _, -, hdone, -⟩ := ok_of_andThen h
      cases hdone
      rfl
  · rename_i hchecked
    obtain ⟨hskip, hwhole⟩ : o.isSkip = false ∧ t'.isTruncated = false := by
      simpa [Options.isSkip] using hchecked
    refine ⟨_, _, andThen_of_ok (reportAll_kept (o := o.toDepth n) hmode _) rfl, rfl, rfl, ?_, ?_, ?_⟩
    · split at h
      · cases h
        rfl
      · obtain ⟨_, _, _, -, hdone, -⟩ := ok_of_andThen h
        cases hdone
        rfl
    · rw [show (o.toDepth n).isSkip = false from hskip, List.append_nil, if_neg (by simp)]
      refine List.filter_eq_nil_iff.2 fun d hd => ?_
      obtain ⟨problem, hproblem, rfl⟩ := List.mem_map.1 hd
      have hkind : problem.cause.kind = .identity := s.kind_checkScope o.absentKeys hproblem
      simp [Diagnostic.kind, hkind]
    · intro hsame
      obtain ⟨ht, hsame⟩ := hsame hwhole
      rw [if_neg (by simp [hskip, ht])] at h
      obtain ⟨_, _, _, hreport, hdone, rfl⟩ := ok_of_andThen h
      cases hdone
      rw [reportAll_kept hmode] at hreport
      cases hreport
      rw [hskip, show (o.toDepth n).isSkip = false from hskip, List.append_nil, List.append_nil]
      refine List.Sublist.map _ ?_
      rcases hsame with hnone | hsame
      · simp [hnone, checkScope]
      · rw [hsame]
        exact checkScope_sublist s _ _ _ _ _ _

/-- Below the bound no child is decoded, and if none is left out there is none. -/
theorem decodeChildren_tooDeep {level : Nat} (h : o.isTooDeep level = true) :
    ∀ (leaves : List (Option Member)) (paths : List String) (es : List Element),
      ∃ below ds, s.decodeChildren level leaves paths es o = .ok (below, ds) ∧ ds = [] ∧
        below.elements = [] ∧ (below.isTruncated = false →
          ∀ o', s.decodeChildren level leaves paths es o' = .ok (.nothing, []))
  | leaf :: leaves, path :: paths, e :: rest => by
    obtain ⟨below, _, hbelow, rfl, hnone, hwhole⟩ := decodeChildren_tooDeep h leaves paths rest
    unfold decodeChildren
    cases leaf.bind fun m => s.treatment m e.name with
    | none => exact ⟨below, [], hbelow, rfl, hnone, hwhole⟩
    | some treatment =>
      simp only [bind_eq_andThen, options_andThen]
      rw [if_pos h]
      refine ⟨.truncated ++ below, _, andThen_of_ok rfl (andThen_of_ok hbelow rfl), rfl, ?_,
        fun hwhole => by cases hwhole⟩
      show [] ++ below.elements = []
      rw [hnone, List.append_nil]
  | [], _, _ :: _ => ⟨.nothing, [], rfl, rfl, rfl, fun _ _ => rfl⟩
  | _ :: _, [], _ :: _ => ⟨.nothing, [], rfl, rfl, rfl, fun _ _ => rfl⟩
  | [], _, [] => ⟨.nothing, [], rfl, rfl, rfl, fun _ _ => rfl⟩
  | _ :: _, [], [] => ⟨.nothing, [], rfl, rfl, rfl, fun _ _ => rfl⟩
  | _ :: _, _ :: _, [] => ⟨.nothing, [], rfl, rfl, rfl, fun _ _ => rfl⟩

mutual

/-- An element is decoded under a bound as it is without one or under a greater one, up to the
bound. -/
theorem decodeElement_prune (hmode : o.mode ≠ .strict) {n : Nat}
    (hdepth : ∀ k ∈ o.maxDepth, n ≤ k) : ∀ {id : ElementId} {level : Nat} {path : String}
      {e : Element} {t : Subtree} {ds : List Diagnostic},
      s.decodeElement id level path e o = .ok (t, ds) →
        ∃ u more, s.decodeElement id level path e (o.toDepth n) = .ok (u, more) ∧
          u.element = t.element.prune n level ∧
          Shortens s n level (.ofSubtree t) ds (.ofSubtree u) more
  | id, level, path, ⟨name, attributes, text, tail, children, scope⟩, t, ds, h => by
    rw [decodeElement_eq] at h ⊢
    generalize he : Element.mk name attributes text tail children scope = e at h ⊢
    obtain ⟨opened, ds₁, _, hopen, hrest, rfl⟩ := ok_of_andThen h
    obtain ⟨content, ds₂, ds₃, hcontent, hclose, rfl⟩ := ok_of_andThen hrest
    have helement := closeElement_yields id content o t ds₃ hclose
    have hdeclared := (openElement_yields id level path e o opened ds₁ hopen).1
    have hopened : s.openElement id level path e (o.toDepth n) = .ok (opened, ds₁) :=
      (IgnoresDepth.modular.openElement s id level e o n).trans hopen
    obtain ⟨content', more, hmore, hsame, hcontentId, hwhole, hsublist, hothers⟩ : ∃ content' more,
        s.contentOf id level path e opened (o.toDepth n) = .ok (content', more) ∧
          content'.element = content.element.prune n level ∧
          content.element.declaration = some id ∧
          (content'.isTruncated = false → content.isTruncated = false ∧
            (content.element.isClipped n level = false → content'.element = content.element)) ∧
          (s.sparesAll n (level + 1) content.element.children = true → more.Sublist ds₂) ∧
          (besidesIdentity more).Sublist (besidesIdentity ds₂) := by
      unfold contentOf at hcontent ⊢
      cases hform : opened.form with
      | children group isMixed =>
          simp only [hform] at hcontent ⊢
          obtain ⟨start, ds₄, _, hstart, hafter, rfl⟩ := ok_of_andThen hcontent
          obtain ⟨below, ds₅, ds₆, hchildren, hend, rfl⟩ := ok_of_andThen hafter
          have hstarted : s.openContent id path group isMixed e (o.toDepth n) = .ok (start, ds₄) :=
            (IgnoresDepth.modular.openContent s id group isMixed e
              (by rintro _ _ ⟨_, rfl⟩; rfl) (fun _ _ _ _ => rfl) o n).trans hstart
          obtain ⟨hid, helements, -, htruncated⟩ :=
            closeContent_yields id path e _ start below o content ds₆ hend
          -- an element from which nothing is left out has the same children
          have hrebuilt : ∀ {below' : Children}, below'.elements = below.elements →
              { content.element with children := below'.elements } = content.element := by
            exact fun hsame => Decoded.eq_of_children (hsame.trans helements.symm)
          subst he
          by_cases hle : n ≤ level + 1
          · obtain ⟨below', _, hbelow, rfl, hnone, hall⟩ := decodeChildren_tooDeep (s := s) (o := o.toDepth n)
              (by simpa [Options.isTooDeep] using hle) start.attribution.leaves
              (Element.childPaths ⟨name, attributes, text, tail, children, scope⟩ path) children
            have hlost : (ds₄ ++ ([] ++ ds₆)).Sublist (ds₄ ++ (ds₅ ++ ds₆)) :=
              (List.Sublist.refl ds₄).append ((List.nil_sublist ds₅).append (List.Sublist.refl ds₆))
            refine ⟨_, _, andThen_of_ok hstarted (andThen_of_ok hbelow
              (closeContent_toDepth hend below' n)), ?_, hid.trans hdeclared, fun htrunc => ?_,
              fun _ => hlost, hlost.filter _⟩
            · rw [hnone, Decoded.prune_of_le hle]
            · rw [hall htrunc o] at hchildren
              cases hchildren
              exact ⟨htruncated, fun _ => hrebuilt hnone⟩
          · obtain ⟨below', more, hbelow, hpruned, hshort⟩ :=
              decodeChildren_prune hmode hdepth (by omega) hchildren
            refine ⟨_, _, andThen_of_ok hstarted (andThen_of_ok hbelow
              (closeContent_toDepth hend below' n)), ?_, hid.trans hdeclared, fun htrunc => ?_,
              fun hspares => (List.Sublist.refl ds₄).append
                ((hshort.sublist (helements ▸ hspares)).append (List.Sublist.refl ds₆)), ?_⟩
            · rw [hpruned, Decoded.prune_of_lt (by omega), helements]
            · obtain ⟨hnone, hkept⟩ := hshort.whole htrunc
              refine ⟨htruncated.trans hnone, fun hclipped => hrebuilt (hkept ?_)⟩
              rw [Decoded.isClipped_of_lt (by omega), helements] at hclipped
              exact hclipped
            · simp only [besidesIdentity_append]
              exact (List.Sublist.refl _).append (hshort.others.append (List.Sublist.refl _))
      | absent | empty | text | unfulfillable =>
          simp only [hform] at hcontent ⊢
          obtain ⟨hid, hchildren, -, htruncated⟩ :=
            decodeLeaf_yields id path e _ _ o content ds₂ hcontent
          have hnone : content.element.children = [] :=
            hchildren.trans (openElement_yields id level path e o opened ds₁ hopen).2
          refine ⟨content, ds₂, ?_, (Decoded.prune_of_children_nil hnone).symm, hid.trans hdeclared,
            fun _ => ⟨htruncated, fun _ => rfl⟩, fun _ => List.Sublist.refl ds₂, List.Sublist.refl _⟩
          exact (IgnoresDepth.modular.decodeLeaf s id e _ _ o n).trans hcontent
    obtain ⟨u, kept, hu, helement', htruncated', htruncated, hidentity, hkept⟩ :=
      closeElement_toDepth hmode hclose content'
    refine ⟨u, _, andThen_of_ok hopened (andThen_of_ok hmore hu),
      helement'.trans (helement ▸ hsame), .ofSubtree (fun hnone => ?_) (fun hspares => ?_) ?_⟩
    · obtain ⟨hwhole', hclipped⟩ := hwhole (htruncated' ▸ hnone)
      rw [htruncated, helement, helement']
      exact ⟨hwhole', hclipped⟩
    · rw [helement, spares_eq, hcontentId, Bool.and_eq_true] at hspares
      obtain ⟨hchecked, hbelow⟩ := hspares
      refine (List.Sublist.refl ds₁).append ((hsublist hbelow).append (hkept fun hnone => ?_))
      obtain ⟨hwhole', hclipped⟩ := hwhole hnone
      refine ⟨hwhole', ?_⟩
      have hcases : (s.element id).identities = [] ∨ content.element.isClipped n level = false := by
        simpa using hchecked
      exact hcases.imp_right hclipped
    · simp only [besidesIdentity_append, hidentity]
      exact (List.Sublist.refl _).append (hothers.append (List.nil_sublist _))

theorem decodeChildren_prune (hmode : o.mode ≠ .strict) {n : Nat}
    (hdepth : ∀ k ∈ o.maxDepth, n ≤ k) :
    ∀ {level : Nat} {leaves : List (Option Member)} {paths : List String} {es : List Element}
      {below : Children} {ds : List Diagnostic}, level < n →
      s.decodeChildren level leaves paths es o = .ok (below, ds) →
        ∃ below' more, s.decodeChildren level leaves paths es (o.toDepth n) = .ok (below', more) ∧
          below'.elements = Decoded.pruneAll n level below.elements ∧
          Shortens s n level below ds below' more
  | level, leaf :: leaves, path :: paths, e :: rest, below, ds, hlt, h => by
    unfold decodeChildren at h ⊢
    generalize (leaf.bind fun m => s.treatment m e.name) = treated at h ⊢
    cases treated with
    | none => exact decodeChildren_prune hmode hdepth hlt h
    | some treatment =>
        simp only [bind_eq_andThen, options_andThen] at h ⊢
        rw [o.isTooDeep_of_lt hdepth hlt, if_neg (by simp)] at h
        rw [if_neg (by simp [Options.isTooDeep, hlt])]
        obtain ⟨here, ds₁, _, hhere, hrest, rfl⟩ := ok_of_andThen h
        obtain ⟨after, ds₂, _, hafter, hdone, rfl⟩ := ok_of_andThen hrest
        cases hdone
        obtain ⟨after', more, hmore, hpruned, hshort⟩ := decodeChildren_prune hmode hdepth hlt hafter
        suffices hfirst : ∃ here' first, (match treatment with
            | .declared id => Children.ofSubtree <$> s.decodeElement id level path e
            | .raw isMissed => Children.ofSubtree <$> s.keepElement isMissed level path e :
              Pass Children) (o.toDepth n) = .ok (here', first) ∧
            here'.elements = Decoded.pruneAll n level here.elements ∧
            Shortens s n level here ds₁ here' first by
          obtain ⟨here', first, hfirst, hpruned', hshort'⟩ := hfirst
          refine ⟨here' ++ after', _, andThen_of_ok hfirst (andThen_of_ok hmore rfl), ?_, ?_⟩
          · show here'.elements ++ after'.elements = _
            rw [hpruned, hpruned', ← Decoded.pruneAll_append]
            rfl
          · rw [List.append_nil, List.append_nil]
            exact hshort'.append hshort
        cases treatment with
        | declared id =>
            obtain ⟨t, _, _, ht, hdone, rfl⟩ := ok_of_andThen hhere
            cases hdone
            obtain ⟨u, more, hu, helement, hshort⟩ := decodeElement_prune hmode hdepth ht
            refine ⟨.ofSubtree u, _, andThen_of_ok hu rfl, ?_, ?_⟩
            · show [u.element] = [t.element.prune n level]
              rw [helement]
            · rw [List.append_nil, List.append_nil]
              exact hshort
        | raw isMissed =>
            obtain ⟨t, ds, _, ht, hdone, rfl⟩ := ok_of_andThen hhere
            cases hdone
            obtain ⟨hkept, hclipped⟩ := keepElement_prune hdepth ht
            exact ⟨_, _, andThen_of_ok hkept rfl, rfl, .ofSubtree (fun hnone => ⟨hnone, hclipped⟩)
              (fun _ => List.Sublist.refl _) (List.Sublist.refl _)⟩
  | _, [], _, _ :: _, _, _, _, h => by
    cases h
    exact ⟨_, _, rfl, rfl, .nothing⟩
  | _, _ :: _, [], _ :: _, _, _, _, h => by
    cases h
    exact ⟨_, _, rfl, rfl, .nothing⟩
  | _, [], _, [], _, _, _, h => by
    cases h
    exact ⟨_, _, rfl, rfl, .nothing⟩
  | _, _ :: _, [], [], _, _, _, h => by
    cases h
    exact ⟨_, _, rfl, rfl, .nothing⟩
  | _, _ :: _, _ :: _, [], _, _, _, h => by
    cases h
    exact ⟨_, _, rfl, rfl, .nothing⟩

end

/-! ## Documents -/

end Schema

/-- An `a`, and then anything. -/
def pruningSample : Components :=
  let c := Components.withElements .v10 [("a", .once)]
  let c := (c.addWildcard ⟨.any, .lax, .zeroOrMore, none⟩).2
  let c := c.withGroup .sequence .once [.element ⟨0⟩, .wildcard ⟨0⟩]
  let c := (c.addLocalType (.complex (.ofContent (.elementOnly ⟨0⟩)))).2
  (c.addGlobalElement (.simple (.plain "root") ⟨1⟩)).2

/-- An `a`, and then a `b` with a `c` in it. -/
def pruningDocument : Document :=
  ⟨some { Element.leaf (.plain "root") with
    children := [.leaf (.plain "a"), (Element.leaf (.plain "b")).addChild (.leaf (.plain "c"))] }⟩

end Conform
