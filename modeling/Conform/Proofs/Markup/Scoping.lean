import Conform.Proofs.Listing
import Conform.Proofs.Markup.Tree
import Mathlib.Data.List.Forall2
/-!
# Scopes in a document

A prefix stands for the namespace that the nearest tag around gives it, first of all the tag that
uses it. No attribute of a tag is written twice, so it does not matter where among them a
declaration stands: the names of a tag are read when all its declarations are known.
-/

namespace Conform

/-! ## Written names -/

/-- What a text denotes where prefixes are bound as in a scope and names without a prefix are in
the namespace `unprefixed`. -/
inductive Scope.Denotes (s : Scope) (unprefixed : String) : String → QName → Prop
  | prefixed {label base space : String} :
    ':' ∉ label.toList → s.space? label = some space →
    Denotes s unprefixed (label ++ ":" ++ base) ⟨space, base⟩
  | plain {base : String} : ':' ∉ base.toList → Denotes s unprefixed base ⟨unprefixed, base⟩

namespace Text

theorem not_mem_of_cut_eq_none {c : Char} {cs : List Char} (h : cut c cs = none) : c ∉ cs := by
  intro hmem
  obtain ⟨a, b, rfl, ha⟩ := List.eq_append_cons_of_mem hmem
  rw [cut_append ha] at h
  cases h

/-- Octets are the only ones that encode what they encode. -/
theorem ofOctets?_inj {a b : List UInt8} {s : String} (ha : ofOctets? a = some s)
    (hb : ofOctets? b = some s) : a = b := by
  unfold ofOctets? String.fromUTF8? at ha hb
  split at ha
  · split at hb
    · have hsame := String.toByteArray_inj.2 ((Option.some.inj ha).trans (Option.some.inj hb).symm)
      simpa [String.fromUTF8] using hsame
    · cases hb
  · cases ha

end Text

namespace Scope

variable {s : Scope} {unprefixed written : String} {n : QName}

/-- A text with a colon is read alike whatever is meant for names without a prefix. -/
theorem Denotes.of_colon (h : s.Denotes unprefixed written n) (hcolon : ':' ∈ written.toList)
    (other : String) : s.Denotes other written n := by
  cases h with
  | prefixed hlabel hspace => exact .prefixed hlabel hspace
  | plain hbase => exact absurd hcolon hbase

theorem resolve_eq_ok_iff : s.resolve written = .ok n ↔ s.Denotes s.defaultSpace written n := by
  constructor
  · intro h
    unfold resolve at h
    split at h
    · rename_i label base hcut
      split at h
      · rename_i space hspace
        cases h
        have hwritten : written = String.ofList label ++ ":" ++ String.ofList base := by
          rw [← String.toList_inj, Text.eq_append_of_cut hcut]
          simp
        rw [hwritten]
        exact .prefixed (by simpa using Text.not_mem_of_cut hcut) hspace
      · cases h
    · rename_i hcut
      cases h
      exact .plain (Text.not_mem_of_cut_eq_none hcut)
  · intro h
    cases h with
    | @prefixed label base space hlabel hspace =>
        have hcut : Text.cut ':' (label ++ ":" ++ base).toList =
            some (label.toList, base.toList) := by
          simpa using Text.cut_append hlabel base.toList
        simp only [resolve, hcut, String.ofList_toList, hspace]
    | plain hbase => rw [resolve, Text.cut_eq_none hbase]

/-- The default namespace is not for attributes. -/
theorem resolveAttribute_eq_ok_iff :
    s.resolveAttribute written = .ok n ↔ s.Denotes "" written n := by
  unfold resolveAttribute
  split
  · rename_i hcolon
    have hmem : ':' ∈ written.toList := List.contains_iff_mem.1 hcolon
    rw [resolve_eq_ok_iff]
    exact ⟨(·.of_colon hmem _), (·.of_colon hmem _)⟩
  · rename_i hcolon
    have hmem : ':' ∉ written.toList := fun h => hcolon (List.contains_iff_mem.2 h)
    constructor
    · rintro ⟨⟩
      exact .plain hmem
    · intro h
      cases h with
      | prefixed => simp at hmem
      | plain => rfl

end Scope

namespace Markup

/-! ## Attributes of a tag -/

/-- The attributes that are no declarations. -/
def ordinary (attributes : List (String × String)) : List (String × String) :=
  attributes.filter fun a => !isDeclaration a.1

theorem boundPrefix?_eq_some_iff {name label : String} :
    boundPrefix? name = some label ↔ name = "xmlns:" ++ label := by
  rw [boundPrefix?, Option.map_eq_some_iff]
  constructor
  · rintro ⟨cs, hcs, rfl⟩
    rw [← String.toList_inj, Text.dropStart?_eq_some_iff.1 hcs]
    simp
  · rintro rfl
    exact ⟨label.toList, Text.dropStart?_eq_some_iff.2 (by simp), by simp⟩

/-- A declaration is for names without a prefix or for those with one. -/
theorem isDeclaration_iff {name : String} :
    isDeclaration name = true ↔ name = "xmlns" ∨ ∃ label, name = "xmlns:" ++ label := by
  simp [isDeclaration, Option.isSome_iff_exists, boundPrefix?_eq_some_iff]

theorem ofOctets?_of_readAttribute {key value : List UInt8} {pair : String × String}
    (h : readAttribute key value = .ok pair) : Text.ofOctets? key = some pair.1 := by
  unfold readAttribute at h
  split at h
  · cases h
  · rename_i name hname
    split at h
    · cases h
    · cases h
      exact hname

/-- The keys of attributes that are read are distinct, and others than those read before. -/
theorem readAttributes_distinct : ∀ {fuel : Nat} {keys : List (List UInt8)} {bytes : List UInt8}
    {attributes : List (String × String)}, readAttributes fuel keys bytes = .ok attributes →
    (attributes.map Prod.fst).Nodup ∧
      ∀ a ∈ attributes, ∀ key ∈ keys, Text.ofOctets? key ≠ some a.1
  | 0, _, _, _, h => by
    cases h
    exact ⟨List.nodup_nil, nofun⟩
  | fuel + 1, keys, bytes, attributes, h => by
    rw [readAttributes] at h
    split at h
    · cases h
      exact ⟨List.nodup_nil, nofun⟩
    · cases h
    · rename_i key value rest _
      split at h
      · cases h
      · rename_i hkey
        cases hpair : readAttribute key value with
        | error fault => rw [hpair] at h; cases h
        | ok pair =>
            cases hmore : readAttributes fuel (key :: keys) rest with
            | error fault => rw [hpair, hmore] at h; cases h
            | ok more =>
                rw [hpair, hmore] at h
                cases h
                have hname := ofOctets?_of_readAttribute hpair
                obtain ⟨hnodup, hother⟩ := readAttributes_distinct hmore
                refine ⟨List.nodup_cons.2 ⟨fun hmem => ?_, hnodup⟩, fun a ha key' hkey' hread => ?_⟩
                · obtain ⟨a, ha, heq⟩ := List.mem_map.1 hmem
                  exact hother a ha key List.mem_cons_self (hname.trans (congrArg some heq.symm))
                · rcases List.mem_cons.1 ha with rfl | ha
                  · exact hkey (Text.ofOctets?_inj hread hname ▸ hkey')
                  · exact hother a ha key' (List.mem_cons_of_mem _ hkey') hread

/-- No tag has two attributes that are written alike. -/
theorem Tag.nodup_attributes {tag : Tag} {attributes : List (String × String)}
    (h : tag.attributes = .ok attributes) : (attributes.map Prod.fst).Nodup :=
  (readAttributes_distinct h).1

/-- Every attribute that is no declaration is put in under the name that it denotes. -/
theorem resolveAttributes_eq_ok {scope : Scope} {attributes : List (String × String)}
    {listing : Listing QName String} (h : resolveAttributes scope attributes = .ok listing) :
    ∃ names, List.Forall₂ (fun a n => scope.Denotes "" a.1 n) (ordinary attributes) names ∧
      listing = Listing.ofList (names.zip ((ordinary attributes).map Prod.snd)) := by
  have hfold : ∀ (as : List (String × String)) (l l' : Listing QName String),
      as.foldlM (fun listing a => do
        return listing.insert (← scope.resolveAttribute a.1) a.2) l = Except.ok l' →
      ∃ names, List.Forall₂ (fun a n => scope.Denotes "" a.1 n) as names ∧
        l' = (names.zip (as.map Prod.snd)).foldl (fun l d => l.insert d.1 d.2) l := by
    intro as
    induction as with
    | nil =>
        intro l l' h
        cases h
        exact ⟨[], .nil, rfl⟩
    | cons a as ih =>
        intro l l' h
        rw [List.foldlM_cons] at h
        cases hname : scope.resolveAttribute a.1 with
        | error fault => rw [hname] at h; cases h
        | ok name =>
            rw [hname] at h
            obtain ⟨names, hnames, hl'⟩ := ih _ _ h
            exact ⟨name :: names, .cons (Scope.resolveAttribute_eq_ok_iff.1 hname) hnames, hl'⟩
  exact hfold _ _ _ h

/-- What is read to open an element. -/
theorem Tag.element_eq_ok {tag : Tag} {outer : Scope} {e : Element}
    (h : tag.element outer = .ok e) : ∃ attributes written,
      tag.attributes = .ok attributes ∧ Text.ofOctets? tag.name = some written ∧
        e.scope = attributes.foldl declare outer ∧ e.scope.resolve written = .ok e.name ∧
          resolveAttributes e.scope attributes = .ok e.attributes := by
  unfold Tag.element at h
  split at h
  · cases h
  · rename_i attributes hattributes
    dsimp only at h
    split at h
    · cases h
    · rename_i written hwritten
      split at h
      · cases h
      · rename_i name hname
        split at h
        · cases h
        · rename_i listing hlisting
          cases h
          exact ⟨attributes, written, hattributes, hwritten, rfl, hname, hlisting⟩

/-! ## Declarations -/

theorem space?_declare (s : Scope) (a : String × String) (label : String) :
    (declare s a).space? label = if a.1 = "xmlns:" ++ label then some a.2 else s.space? label := by
  unfold declare
  split
  · rename_i hdefault
    rw [if_neg]
    · rfl
    · rw [hdefault, ← boundPrefix?_eq_some_iff]
      simp [boundPrefix?, Text.dropStart?]
  · split
    · rename_i label' hbound
      rw [boundPrefix?_eq_some_iff] at hbound
      simp [Scope.bind, Scope.space?, hbound]
    · rename_i hbound
      rw [if_neg fun h => by simp [boundPrefix?_eq_some_iff.2 h] at hbound]

theorem defaultSpace_declare (s : Scope) (a : String × String) :
    (declare s a).defaultSpace = if a.1 = "xmlns" then a.2 else s.defaultSpace := by
  unfold declare
  split
  · rfl
  · split <;> rfl

/-- What one attribute sets in a scope is there after all of them, wherever it stands. -/
theorem foldl_declare {β : Type} (get : Scope → β) (set : String → β) {key : String}
    (hdeclare : ∀ s a, get (declare s a) = if a.1 = key then set a.2 else get s)
    {attributes : List (String × String)} (h : (attributes.map Prod.fst).Nodup) (s : Scope) :
    get (attributes.foldl declare s) = ((attributes.lookup key).map set).getD (get s) := by
  induction attributes generalizing s with
  | nil => rfl
  | cons a rest ih =>
      rw [List.map_cons, List.nodup_cons] at h
      rw [List.foldl_cons, ih h.2, hdeclare]
      by_cases hkey : a.1 = key
      · -- no later attribute has this key
        have hrest : rest.lookup key = none := by
          refine List.lookup_eq_none_iff.2 fun b hb => bne_iff_ne.2 fun heq => h.1 ?_
          exact hkey ▸ heq ▸ List.mem_map_of_mem hb
        rw [if_pos hkey, hrest, List.lookup_cons, beq_iff_eq.2 hkey.symm]
        rfl
      · rw [if_neg hkey, List.lookup_cons, beq_false_of_ne (Ne.symm hkey)]

/-- The value that a tag gives to an attribute. -/
def Tag.value? (tag : Tag) (name : String) : Option String :=
  tag.attributes.toOption.bind (·.lookup name)

/-- The value of an attribute in the first of the tags that has it. -/
def nearest? (name : String) (tags : List Tag) : Option String := tags.findSome? (·.value? name)

theorem nearest?_cons {tag : Tag} {attributes : List (String × String)}
    (h : tag.attributes = .ok attributes) (name : String) (outer : List Tag) :
    nearest? name (tag :: outer) = (attributes.lookup name).or (nearest? name outer) := by
  have hvalue : tag.value? name = attributes.lookup name := by rw [Tag.value?, h]; rfl
  rw [nearest?, List.findSome?_cons, hvalue]
  cases attributes.lookup name <;> rfl

/-- The scope inside tags, innermost first: a prefix is bound by the nearest of its declarations,
and so is the default namespace. Only `xml` is bound without any. -/
structure ScopeOf (tags : List Tag) (scope : Scope) : Prop where
  spaces : ∀ label, scope.space? label =
    (nearest? ("xmlns:" ++ label) tags).or (if label = "xml" then some QName.xmlSpace else none)
  defaultSpace : scope.defaultSpace = (nearest? "xmlns" tags).getD ""

theorem scopeOf_nil : ScopeOf [] Building.baseScope where
  spaces label := by
    simp only [Building.baseScope, Scope.space?, Scope.bind, Listing.get?_insert, eq_comm]
    rfl
  defaultSpace := rfl

theorem ScopeOf.declare {outer : List Tag} {scope : Scope} (h : ScopeOf outer scope) {tag : Tag}
    {attributes : List (String × String)} (ha : tag.attributes = .ok attributes) :
    ScopeOf (tag :: outer) (attributes.foldl declare scope) where
  spaces label := by
    have hspace := foldl_declare (·.space? label) some
      (fun s a => space?_declare s a label) (Tag.nodup_attributes ha) scope
    rw [hspace, h.spaces, nearest?_cons ha, Option.or_assoc]
    cases attributes.lookup ("xmlns:" ++ label) <;> rfl
  defaultSpace := by
    have hdefault := foldl_declare (·.defaultSpace) id defaultSpace_declare
      (Tag.nodup_attributes ha) scope
    rw [hdefault, h.defaultSpace, nearest?_cons ha, Option.getD_or, Option.map_id_fun]
    rfl

/-- An element is read in the scope of its own tag and the tags around it. -/
structure Scoped (tag : Tag) (outer : List Tag) (head : Head) : Prop where
  scope : ScopeOf (tag :: outer) head.scope
  name : ∃ written, Text.ofOctets? tag.name = some written ∧
    head.scope.Denotes head.scope.defaultSpace written head.name
  attributes : ∃ attributes names, tag.attributes = .ok attributes ∧
    (attributes.map Prod.fst).Nodup ∧
      List.Forall₂ (fun a n => head.scope.Denotes "" a.1 n) (ordinary attributes) names ∧
        ∀ n, n ∈ head.attributes.keys ↔ n ∈ names

theorem Around.scopeOf {outer : List Tag} {scope : Scope} (h : Around Scoped outer scope) :
    ScopeOf outer scope := by
  cases h with
  | outside => exact scopeOf_nil
  | inside hscoped => exact hscoped.scope

theorem settles_scoped : Settles Scoped := by
  intro tag outer scope e haround h
  obtain ⟨attributes, written, hattributes, hwritten, hscope, hname, hlisting⟩ :=
    Tag.element_eq_ok h
  obtain ⟨names, hnames, hkeys⟩ := resolveAttributes_eq_ok hlisting
  refine ⟨?_, ⟨written, hwritten, Scope.resolve_eq_ok_iff.1 hname⟩, attributes, names,
    hattributes, Tag.nodup_attributes hattributes, hnames, fun n => ?_⟩
  · show ScopeOf (tag :: outer) e.scope
    rw [hscope]
    exact haround.scopeOf.declare hattributes
  · show n ∈ e.attributes.keys ↔ n ∈ names
    rw [hkeys, Listing.mem_keys_ofList, List.map_fst_zip]
    simp [hnames.length_eq]

end Markup

namespace Document

open Markup

/-- In a document every name is read by the declarations of the tag itself and the tags around it,
and the tags stand as the octets have them. -/
theorem parse_scoped {bytes : List UInt8} {d : Document} (h : parse bytes = .ok d) :
    ∃ (root : Element) (tree : TagTree), d.root = some root ∧
      tree.marks = marks 0 (scan bytes).events ∧ tree.Describes Scoped [] root :=
  describes_of_ofReading settles_scoped h

/-- A document with an attribute before the declaration of its prefix, a default namespace that is
taken away, and a prefix that is bound again. -/
def scopedSample : List UInt8 :=
  Text.octets "<p:a p:x='1' y='2' xmlns='v' xmlns:p='u'><b xmlns=''/><p:c xmlns:p='w'/><d/></p:a>"

theorem parse_scoped_sample :
    ∃ (d : Document) (root : Element) (tree : TagTree), parse scopedSample = .ok d ∧
      d.root = some root ∧ tree.marks = marks 0 (scan scopedSample).events ∧
        tree.Describes Scoped [] root := by
  have hok : (parse scopedSample).isOk = true := by decide +kernel
  cases h : parse scopedSample with
  | error failure => rw [h] at hok; cases hok
  | ok d =>
      obtain ⟨root, tree, hroot, hmarks, hscoped⟩ := parse_scoped h
      exact ⟨d, root, tree, rfl, hroot, hmarks, hscoped⟩

/-- The names in that document. -/
example : (parse scopedSample).toOption.bind (·.root.map fun root =>
      (root.attributes.keys, (root.outline 0).map (·.2.name))) =
    some ([⟨"u", "x"⟩, .plain "y"], [⟨"u", "a"⟩, .plain "b", ⟨"w", "c"⟩, ⟨"v", "d"⟩]) := by
  decide +kernel

end Document

end Conform
