import Conform.Proofs.Decode.Depth
import Conform.Proofs.Model.Bounded
/-!
# The bound on the depth of documents

A pass over a document that comes to its end decodes a tree of some height. Under another bound it
leads to the same if the bound admits the height, and else fails at the first element below the
bound. The bound changes nothing else.
-/

namespace Conform

/-! ## Heights -/

namespace Decoded

mutual

/-- The number of levels of a tree. -/
def height : Decoded → Nat
  | ⟨_, _, _, _, children, _, _, _, _⟩ => heightOfAll children + 1

/-- The number of levels of trees side by side. -/
def heightOfAll : List Decoded → Nat
  | [] => 0
  | d :: rest => max d.height (heightOfAll rest)

end

theorem height_eq (d : Decoded) : d.height = heightOfAll d.children + 1 := by
  cases d
  rw [height]

theorem heightOfAll_append : ∀ ds ds' : List Decoded,
    heightOfAll (ds ++ ds') = max (heightOfAll ds) (heightOfAll ds')
  | [], _ => (Nat.zero_max _).symm
  | d :: rest, ds' => by
    rw [List.cons_append, heightOfAll, heightOfAll_append rest ds', heightOfAll, Nat.max_assoc]

end Decoded

/-! ## Building under other limits -/

namespace Components

/-- The components with other limits. -/
def limited (c : Components) (l : Limits) : Components := { c with limits := l }

variable {c : Components} {l : Limits}

theorem visit_limited : ∀ (fuel : Nat) (trail : List GroupId) (id : GroupId)
    (finished : List GroupId),
    (c.limited l).visit fuel trail id finished = c.visit fuel trail id finished
  | 0, _, _, _ => rfl
  | fuel + 1, _, _, _ => by
    unfold visit
    simp only [visit_limited fuel]
    rfl

theorem foldFrom_limited : ∀ (fuel : Nat) (g : Option GroupId) (o : Occurs),
    (c.limited l).foldFrom fuel g o = c.foldFrom fuel g o
  | 0, _, _ => rfl
  | _ + 1, none, _ => rfl
  | fuel + 1, some _, _ => by
    unfold foldFrom
    simp only [foldFrom_limited fuel]
    rfl

/-- A build only keeps the limits. -/
theorem build_limited (c : Components) (l : Limits) :
    (c.limited l).build = c.build.map fun s => { s with limits := l } := by
  have horder : (c.limited l).groupOrder = c.groupOrder := by
    unfold groupOrder
    simp only [visit_limited]
    rfl
  have hfolded : (c.limited l).foldedOccurs = c.foldedOccurs := by
    unfold foldedOccurs foldOccurs
    simp only [foldFrom_limited]
    rfl
  show _ = (fun s : Schema => { s with limits := l }) <$> c.build
  unfold build
  simp only [map_bind, map_pure]
  rw [horder, hfolded]
  rfl

end Components

/-! ## Results within a bound -/

/-- A result of so many levels under a bound: the first element that is too deep is one level below
the bound. -/
def within {α : Type} (depth levels : Nat) (r : α) : Except Failure α :=
  if levels ≤ depth then .ok r else .error (.markupDepth (depth + 1) depth)

section Within

variable {α : Type} {depth levels : Nat} {r : α}

theorem within_of_le (h : levels ≤ depth) : within depth levels r = .ok r := if_pos h

theorem within_of_lt (h : depth < levels) :
    within depth levels r = .error (.markupDepth (depth + 1) depth) := if_neg (by omega)

/-- An element at a level that the one around it has passed. -/
theorem checkMarkupDepth_within {l : Limits} {level : Nat} (h : level ≤ l.maxMarkupDepth) :
    l.checkMarkupDepth (level + 1) = within l.maxMarkupDepth (level + 1) () := by
  unfold Limits.checkMarkupDepth
  split
  · rename_i hlt
    rw [within_of_lt hlt]
    obtain rfl : level = l.maxMarkupDepth := by omega
    rfl
  · rename_i hle
    rw [within_of_le (by omega)]

theorem Pass.ofExcept_within {e : Except Failure α} {o : Options}
    (h : e = within depth levels r) : Pass.ofExcept e o = within depth levels (r, []) := by
  subst h
  unfold ofExcept within
  split
  · rfl
  · rfl

/-- One pass after another has the levels of both. -/
theorem Pass.andThen_within {β : Type} {p : Pass α} {f : α → Pass β} {o : Options} {n m : Nat}
    {a : α} {b : β} {ds more : List Diagnostic} (hp : p o = within depth n (a, ds))
    (hf : n ≤ depth → f a o = within depth m (b, more)) (hlevels : levels = max n m) :
    p.andThen f o = within depth levels (b, ds ++ more) := by
  subst hlevels
  unfold andThen
  rw [hp]
  by_cases hn : n ≤ depth
  · rw [within_of_le hn]
    dsimp only
    rw [hf hn]
    by_cases hm : m ≤ depth
    · rw [within_of_le hm, within_of_le (Nat.max_le.2 ⟨hn, hm⟩)]
    · have hmax : depth < max n m := by omega
      rw [within_of_lt (by omega), within_of_lt hmax]
  · have hmax : depth < max n m := by omega
    rw [within_of_lt (by omega), within_of_lt hmax]

/-- What goes before adds no levels. -/
theorem Pass.ok_andThen_within {β : Type} {p : Pass α} {f : α → Pass β} {o : Options} {a : α}
    {b : β} {ds more : List Diagnostic} (hp : p o = .ok (a, ds))
    (hf : f a o = within depth levels (b, more)) :
    p.andThen f o = within depth levels (b, ds ++ more) :=
  andThen_within (hp.trans (within_of_le depth.zero_le).symm) (fun _ => hf) (Nat.zero_max _).symm

/-- What comes after adds no levels. -/
theorem Pass.within_andThen_ok {β : Type} {p : Pass α} {f : α → Pass β} {o : Options} {a : α}
    {b : β} {ds more : List Diagnostic} (hp : p o = within depth levels (a, ds))
    (hf : f a o = .ok (b, more)) : p.andThen f o = within depth levels (b, ds ++ more) :=
  andThen_within hp (fun _ => hf.trans (within_of_le depth.zero_le).symm) (Nat.max_zero _).symm

end Within

mutual

theorem decodeRaw_within {l l' : Limits} {o : Options} : ∀ {level : Nat} {path : String}
    {e : Element} {d : Decoded}, decodeRaw l o level path e = .ok d →
      level ≤ l'.maxMarkupDepth →
        decodeRaw l' o level path e = within l'.maxMarkupDepth (level + d.height) d
  | level, path, ⟨name, attributes, text, tail, children, scope⟩, d, h, hlevel => by
    have hheight := d.height_eq
    unfold decodeRaw at h ⊢
    rw [checkMarkupDepth_within hlevel]
    split at h
    · cases h
    dsimp only at h ⊢
    by_cases hhere : level + 1 ≤ l'.maxMarkupDepth
    · rw [within_of_le hhere]
      dsimp only
      split at h
      · cases h
        rw [if_pos ‹_›, hheight]
        exact (within_of_le hhere).symm
      · rw [if_neg ‹_›]
        split at h
        · cases h
        rename_i below hbelow
        cases h
        replace hheight : _ = Decoded.heightOfAll below + 1 := hheight
        rw [decodeRawAll_within hbelow hhere]
        -- The element itself fits, so the failure is one of its children.
        by_cases hfits : level + 1 + Decoded.heightOfAll below ≤ l'.maxMarkupDepth
        · rw [within_of_le hfits, within_of_le (by omega)]
        · rw [within_of_lt (by omega), within_of_lt (by omega)]
    · rw [within_of_lt (by omega), within_of_lt (by omega)]

theorem decodeRawAll_within {l l' : Limits} {o : Options} : ∀ {level : Nat} {paths : List String}
    {es : List Element} {ds : List Decoded}, decodeRawAll l o level paths es = .ok ds →
      level ≤ l'.maxMarkupDepth → decodeRawAll l' o level paths es =
        within l'.maxMarkupDepth (level + Decoded.heightOfAll ds) ds
  | level, path :: paths, e :: rest, ds, h, hlevel => by
    unfold decodeRawAll at h ⊢
    split at h
    · cases h
    rename_i d hd
    split at h
    · cases h
    rename_i more hmore
    cases h
    rw [decodeRaw_within hd hlevel, decodeRawAll_within hmore hlevel, Decoded.heightOfAll]
    by_cases hhere : level + d.height ≤ l'.maxMarkupDepth
    · rw [within_of_le hhere]
      by_cases hafter : level + Decoded.heightOfAll more ≤ l'.maxMarkupDepth
      · rw [within_of_le hafter, within_of_le (by omega)]
      · rw [within_of_lt (by omega), within_of_lt (by omega)]
    · have hover : l'.maxMarkupDepth < level + d.height := by omega
      have hmax : l'.maxMarkupDepth < level + max d.height (Decoded.heightOfAll more) := by omega
      rw [within_of_lt hover, within_of_lt hmax]
  | _, [], _ :: _, _, h, hlevel => by
    cases h
    exact (within_of_le hlevel).symm
  | _, [], [], _, h, hlevel => by
    cases h
    exact (within_of_le hlevel).symm
  | _, _ :: _, [], _, h, hlevel => by
    cases h
    exact (within_of_le hlevel).symm

end

/-! ## Elements -/

namespace Schema

open Pass

variable {s : Schema} {depth : Nat} {o : Options}

theorem typeOf_bounded (id : ElementId) (path : String) (e : Element) :
    (s.bounded depth).typeOf id path e = s.typeOf id path e := by
  have hnamed : (s.bounded depth).namedType? = s.namedType? := rfl
  have helement : (s.bounded depth).element = s.element := rfl
  unfold typeOf
  rw [hnamed, helement]

theorem decodeAttributes_bounded (id : ElementId) (path : String) (type : Option ComplexType)
    (e : Element) : ∀ (entries : List (QName × String)) (decoded : Listing QName Json),
      (s.bounded depth).decodeAttributes id path type e entries decoded =
        s.decodeAttributes id path type e entries decoded
  | [], _ => rfl
  | _ :: rest, _ => by
    unfold decodeAttributes
    simp only [decodeAttributes_bounded id path type e rest]
    rfl

theorem missingAttributes_bounded (id : ElementId) (path : String) (e : Element) :
    ∀ as : List AttributeDeclaration,
      (s.bounded depth).missingAttributes id path e as = s.missingAttributes id path e as
  | [] => rfl
  | _ :: rest => by
    unfold missingAttributes
    simp only [missingAttributes_bounded id path e rest]
    rfl

theorem attributesOf_bounded (id : ElementId) (path : String) (type : TypeDefinition)
    (e : Element) :
    (s.bounded depth).attributesOf id path type e = s.attributesOf id path type e := by
  unfold attributesOf
  simp only [decodeAttributes_bounded, missingAttributes_bounded]

theorem openContent_bounded (id : ElementId) (path : String) (group : GroupId) (isMixed : Bool)
    (e : Element) :
    (s.bounded depth).openContent id path group isMixed e =
      s.openContent id path group isMixed e := by
  unfold openContent attributionIn
  simp only [attribution_bounded, looseAttribution_bounded]
  rfl

/-- An opened element reaches one level down. -/
theorem openElement_within {id : ElementId} {level : Nat} {path : String} {e : Element}
    {opened : Opened} {ds : List Diagnostic}
    (h : s.openElement id level path e o = .ok (opened, ds)) (hlevel : level ≤ depth) :
    (s.bounded depth).openElement id level path e o = within depth (level + 1) (opened, ds) := by
  unfold openElement at h ⊢
  obtain ⟨_, _, _, hcheck, hrest, rfl⟩ := ok_of_andThen h
  obtain ⟨-, rfl⟩ := ok_of_ofExcept hcheck
  show (Pass.ofExcept ((s.bounded depth).limits.checkMarkupDepth (level + 1))).andThen _ o = _
  refine within_andThen_ok (ofExcept_within (checkMarkupDepth_within hlevel)) (Eq.trans ?_ hrest)
  simp only [typeOf_bounded, attributesOf_bounded]
  rfl

/-- A kept element reaches down by its height. -/
theorem keepElement_within {isMissed : Bool} {level : Nat} {path : String} {e : Element}
    {t : Subtree} {ds : List Diagnostic} (h : s.keepElement isMissed level path e o = .ok (t, ds))
    (hlevel : level ≤ depth) :
    (s.bounded depth).keepElement isMissed level path e o =
      within depth (level + t.element.height) (t, ds) := by
  unfold keepElement at h ⊢
  obtain ⟨_, first, _, hreport, hrest, rfl⟩ := ok_of_andThen h
  obtain ⟨_, _, _, hoptions, hkept, rfl⟩ := ok_of_andThen hrest
  cases hoptions
  obtain ⟨d, _, _, hraw, hdone, rfl⟩ := ok_of_andThen hkept
  cases hdone
  obtain ⟨hdecoded, rfl⟩ := ok_of_ofExcept hraw
  show (Pass.reportIf isMissed (.error (.undeclaredElement e.tag) path)).andThen _ o = _
  refine ok_andThen_within hreport (ok_andThen_within (a := o) rfl ?_)
  rw [bind_eq_andThen]
  exact within_andThen_ok (ofExcept_within (decodeRaw_within hdecoded hlevel)) rfl

theorem ofSubtree_within {p : Pass Subtree} {level : Nat} {t : Subtree} {ds : List Diagnostic}
    (h : p o = within depth (level + t.element.height) (t, ds)) :
    (Children.ofSubtree <$> p) o = within depth
      (level + Decoded.heightOfAll (Children.ofSubtree t).elements)
      (Children.ofSubtree t, ds ++ []) := by
  have hheight : Decoded.heightOfAll (Children.ofSubtree t).elements = t.element.height :=
    Nat.max_zero _
  rw [hheight]
  exact within_andThen_ok h rfl

/-- If the children reach down by their height, then so does the content. -/
theorem contentOf_within {id : ElementId} {level : Nat} {path : String} {e : Element}
    {opened : Opened} {t : Subtree} {ds : List Diagnostic}
    (h : s.contentOf id level path e opened o = .ok (t, ds))
    (hnone : opened.decoded.children = []) (hlevel : level + 1 ≤ depth)
    (hchildren : ∀ {leaves : List (Option Member)} {below : Children} {more : List Diagnostic},
      s.decodeChildren (level + 1) leaves (e.childPaths path) e.children o = .ok (below, more) →
        (s.bounded depth).decodeChildren (level + 1) leaves (e.childPaths path) e.children o =
          within depth (level + 1 + Decoded.heightOfAll below.elements) (below, more)) :
    (s.bounded depth).contentOf id level path e opened o =
      within depth (level + t.element.height) (t, ds) := by
  have hheight := t.element.height_eq
  unfold contentOf at h ⊢
  cases hform : opened.form with
  | children group isMixed =>
      simp only [hform] at h ⊢
      obtain ⟨content, _, _, hstart, hafter, rfl⟩ := ok_of_andThen h
      obtain ⟨below, _, _, hbelow, hend, rfl⟩ := ok_of_andThen hafter
      rw [(closeContent_yields id path _ _ content below _ _ _ hend).2.1] at hheight
      have hlevels : level + t.element.height =
          level + 1 + Decoded.heightOfAll below.elements := by omega
      rw [hlevels, openContent_bounded]
      exact ok_andThen_within hstart (within_andThen_ok (hchildren hbelow) hend)
  | absent | empty | text | unfulfillable =>
      simp only [hform] at h ⊢
      rw [(decodeLeaf_yields id path _ _ _ _ _ _ h).2.1, hnone] at hheight
      rw [hheight]
      exact h.trans (within_of_le hlevel).symm

mutual

theorem decodeElement_within : ∀ {id : ElementId} {level : Nat} {path : String} {e : Element}
    {t : Subtree} {ds : List Diagnostic}, s.decodeElement id level path e o = .ok (t, ds) →
      level ≤ depth → (s.bounded depth).decodeElement id level path e o =
        within depth (level + t.element.height) (t, ds)
  | id, level, path, ⟨name, attributes, text, tail, children, scope⟩, t, ds, h, hlevel => by
    rw [decodeElement_eq] at h ⊢
    obtain ⟨opened, ds₁, _, hopen, hrest, rfl⟩ := ok_of_andThen h
    obtain ⟨u, ds₂, ds₃, hcontent, hclose, rfl⟩ := ok_of_andThen hrest
    have hnone := (openElement_yields id level path _ _ _ _ hopen).2
    have hheight := u.element.height_eq
    rw [closeElement_yields id u _ _ _ hclose]
    -- The content never reaches less far than the tag of the element.
    have hlevels : level + u.element.height = max (level + 1) (level + u.element.height) := by omega
    refine andThen_within (openElement_within hopen hlevel) (fun hhere => ?_) hlevels
    exact within_andThen_ok (contentOf_within hcontent hnone hhere
      fun hbelow => decodeChildren_within hbelow hhere) hclose

theorem decodeChildren_within : ∀ {level : Nat} {leaves : List (Option Member)}
    {paths : List String} {es : List Element} {below : Children} {ds : List Diagnostic},
      s.decodeChildren level leaves paths es o = .ok (below, ds) → level ≤ depth →
        (s.bounded depth).decodeChildren level leaves paths es o =
          within depth (level + Decoded.heightOfAll below.elements) (below, ds)
  | level, leaf :: leaves, path :: paths, e :: rest, below, ds, h, hlevel => by
    unfold decodeChildren at h ⊢
    have htreatment : (fun m => (s.bounded depth).treatment m e.name) =
        fun m => s.treatment m e.name := rfl
    rw [htreatment]
    generalize (leaf.bind fun m => s.treatment m e.name) = treated at h ⊢
    cases treated with
    | none => exact decodeChildren_within h hlevel
    | some treatment =>
        obtain ⟨_, _, _, hoptions, hrest, rfl⟩ := ok_of_andThen h
        cases hoptions
        obtain ⟨here, ds₁, _, hhere, hafter, rfl⟩ := ok_of_andThen hrest
        obtain ⟨after, ds₂, _, hmore, hdone, rfl⟩ := ok_of_andThen hafter
        cases hdone
        have hheights : Decoded.heightOfAll (here ++ after).elements =
            max (Decoded.heightOfAll here.elements) (Decoded.heightOfAll after.elements) :=
          Decoded.heightOfAll_append ..
        have hlevels : level + max (Decoded.heightOfAll here.elements)
            (Decoded.heightOfAll after.elements) = max (level + Decoded.heightOfAll here.elements)
              (level + Decoded.heightOfAll after.elements) := by omega
        rw [hheights]
        refine ok_andThen_within (a := o) rfl (andThen_within (a := here) ?_ (fun _ => ?_) hlevels)
        · by_cases hdeep : o.isTooDeep level
          · rw [if_pos hdeep] at hhere ⊢
            cases hhere
            exact (within_of_le hlevel).symm
          · rw [if_neg hdeep] at hhere ⊢
            cases treatment with
            | declared id =>
                obtain ⟨t, _, _, ht, hdone, rfl⟩ := ok_of_andThen hhere
                cases hdone
                exact ofSubtree_within (decodeElement_within ht hlevel)
            | raw isMissed =>
                obtain ⟨t, _, _, ht, hdone, rfl⟩ := ok_of_andThen hhere
                cases hdone
                exact ofSubtree_within (keepElement_within ht hlevel)
        · exact within_andThen_ok (decodeChildren_within hmore hlevel) rfl
  | _, [], _, _ :: _, _, _, h, hlevel => by
    cases h
    exact (within_of_le hlevel).symm
  | _, _ :: _, [], _ :: _, _, _, h, hlevel => by
    cases h
    exact (within_of_le hlevel).symm
  | _, [], _, [], _, _, h, hlevel => by
    cases h
    exact (within_of_le hlevel).symm
  | _, _ :: _, [], [], _, _, h, hlevel => by
    cases h
    exact (within_of_le hlevel).symm
  | _, _ :: _, _ :: _, [], _, _, h, hlevel => by
    cases h
    exact (within_of_le hlevel).symm

end

/-! ## Documents -/

theorem decode_within {d : Document} {v : Decoded} {ds : List Diagnostic}
    (h : s.decode d o = .ok (some v, ds)) :
    (s.bounded depth).decode d o = within depth v.height (some v, ds) := by
  unfold decode decodeDocument at h ⊢
  cases hroot : d.root with
  | none =>
      simp only [hroot] at h
      obtain ⟨_, _, _, -, hdone, -⟩ := ok_of_andThen h
      cases hdone
  | some root =>
      have hnamed : (s.bounded depth).elementNamed? root.name = s.elementNamed? root.name := rfl
      simp only [hroot, hnamed] at h ⊢
      cases hid : s.elementNamed? root.name with
      | none =>
          simp only [hid] at h
          obtain ⟨_, _, _, -, hdone, -⟩ := ok_of_andThen h
          cases hdone
      | some id =>
          simp only [hid] at h ⊢
          obtain ⟨t, _, _, ht, hdone, rfl⟩ := ok_of_andThen h
          cases hdone
          have hwithin := decodeElement_within ht depth.zero_le
          rw [Nat.zero_add] at hwithin
          exact within_andThen_ok hwithin rfl

end Schema

end Conform
