import Conform.Decode.Children
import Mathlib.Data.List.Nodup
import Mathlib.Data.List.Pairwise
import Mathlib.Tactic.Common
/-!
# Paths of elements

The path of a child is the one of its parent with a segment: the tag of the child, and its position
among the children of the same name if there are others. Segments hold no slash, so paths tell
elements apart where the segments of siblings do. That is so where the tags of siblings agree
exactly with their names. A tag is written in the scope of the element itself, so it may also be the
same for two names, or different for one.
-/

namespace Conform

/-! ## Texts that are set off -/

namespace Text

/-- Nothing, or a text that begins with `c`. -/
def IsSetOff (c : Char) (r : List Char) : Prop := r = [] ∨ ∃ rest, r = c :: rest

/-- The text in front of what is set off is the same if it does not hold the character. -/
theorem append_inj_of_isSetOff {c : Char} : ∀ {a b r r' : List Char}, c ∉ a → c ∉ b →
    IsSetOff c r → IsSetOff c r' → a ++ r = b ++ r' → a = b ∧ r = r'
  | [], [], _, _, _, _, _, _, h => ⟨rfl, h⟩
  | [], y :: b, r, r', _, hb, hr, _, h => by
    rcases hr with rfl | ⟨rest, rfl⟩
    · cases h
    · exact absurd ((List.cons.inj h).1 ▸ List.mem_cons_self) hb
  | x :: a, [], r, r', ha, _, _, hr', h => by
    rcases hr' with rfl | ⟨rest, rfl⟩
    · cases h
    · exact absurd ((List.cons.inj h).1 ▸ List.mem_cons_self) ha
  | x :: a, y :: b, r, r', ha, hb, hr, hr', h => by
    obtain ⟨rfl, htail⟩ := List.cons.inj h
    obtain ⟨rfl, hrest⟩ := append_inj_of_isSetOff (fun hc => ha (List.mem_cons_of_mem _ hc))
      (fun hc => hb (List.mem_cons_of_mem _ hc)) hr hr' htail
    exact ⟨rfl, hrest⟩

theorem toString_inj {n m : Nat} (h : toString n = toString m) : n = m := by
  have hdigits : Nat.toDigits 10 n = Nat.toDigits 10 m := by
    simpa [toString, Nat.repr] using congrArg String.toList h
  rw [← Nat.ofDigitChars_ten_toDigits (n := n), hdigits, Nat.ofDigitChars_ten_toDigits]

theorem not_mem_toDigits {c : Char} (hc : c.isDigit = false) (n : Nat) :
    c ∉ Nat.toDigits 10 n := by
  intro hmem
  rw [Nat.isDigit_of_mem_toDigits (by decide) (by decide) hmem] at hc
  cases hc

end Text

namespace Element

/-! ## Segments -/

/-- The segment of a child at a position among the children of its name. -/
def segment (all : List QName) (c : Element) (n : Nat) : String :=
  c.tag ++ if 1 < all.count c.name then "[" ++ toString n ++ "]" else ""

/-- The tags of the children are free of what structures a path, and agree with their names. -/
structure HasClearTags (e : Element) : Prop where
  plain : ∀ c ∈ e.children, '/' ∉ c.tag.toList ∧ '[' ∉ c.tag.toList
  agree : ∀ c ∈ e.children, ∀ c' ∈ e.children, c.tag = c'.tag ↔ c.name = c'.name

instance (e : Element) : Decidable e.HasClearTags :=
  decidable_of_iff ((∀ c ∈ e.children, '/' ∉ c.tag.toList ∧ '[' ∉ c.tag.toList) ∧
      ∀ c ∈ e.children, ∀ c' ∈ e.children, c.tag = c'.tag ↔ c.name = c'.name)
    ⟨fun h => ⟨h.1, h.2⟩, fun h => ⟨h.plain, h.agree⟩⟩

variable {e c c' : Element} {all : List QName} {n n' : Nat}

theorem isSetOff_position (p : Prop) [Decidable p] (n : Nat) :
    Text.IsSetOff '[' (if p then "[" ++ toString n ++ "]" else "").toList := by
  split
  · exact .inr ⟨(toString n ++ "]").toList, by simp⟩
  · exact .inl rfl

theorem HasClearTags.segment_inj (h : e.HasClearTags) (hc : c ∈ e.children)
    (hc' : c' ∈ e.children) (heq : c.segment all n = c'.segment all n') :
    c.name = c'.name ∧ (1 < all.count c.name → n = n') := by
  have htext := congrArg String.toList heq
  rw [segment, segment, String.toList_append, String.toList_append] at htext
  obtain ⟨htag, hposition⟩ := Text.append_inj_of_isSetOff (h.plain c hc).2 (h.plain c' hc').2
    (isSetOff_position _ n) (isSetOff_position _ n') htext
  have hname := (h.agree c hc c' hc').1 (String.toList_inj.1 htag)
  refine ⟨hname, fun hmany => ?_⟩
  rw [← hname, if_pos hmany, if_pos hmany, String.toList_inj] at hposition
  exact Text.toString_inj ((String.append_right_inj _).1 ((String.append_left_inj _).1 hposition))

theorem HasClearTags.not_mem_segment (h : e.HasClearTags) (hc : c ∈ e.children) :
    '/' ∉ (c.segment all n).toList := by
  rw [segment, String.toList_append, List.mem_append, not_or]
  refine ⟨(h.plain c hc).1, ?_⟩
  split
  · have hdigits := Text.not_mem_toDigits (c := '/') rfl n
    simp [hdigits]
  · simp

/-! ## Paths of children -/

/-- A path begins with another one, and goes on with segments. -/
def IsBelow (path q : String) : Prop := ∃ r, Text.IsSetOff '/' r ∧ q.toList = path.toList ++ r

/-- No path is below both. -/
def Apart (p q : String) : Prop := ∀ x, IsBelow p x → ¬IsBelow q x

/-- A child has a position that comes after those of its name before it. -/
theorem mem_childPathsFrom {path q : String} : ∀ {before : List QName} {es : List Element},
    q ∈ childPathsFrom path all before es →
      ∃ c ∈ es, ∃ n, before.count c.name < n ∧ q = path ++ "/" ++ c.segment all n
  | _, [], h => by cases h
  | before, c :: rest, h => by
    rcases List.mem_cons.1 h with rfl | h
    · exact ⟨c, List.mem_cons_self, _, Nat.lt_succ_self _, String.append_assoc⟩
    · obtain ⟨c', hc', n, hn, rfl⟩ := mem_childPathsFrom h
      refine ⟨c', List.mem_cons_of_mem _ hc', n, ?_, rfl⟩
      exact Nat.lt_of_le_of_lt List.count_le_count_cons hn

theorem HasClearTags.apart_segments (h : e.HasClearTags) (hc : c ∈ e.children)
    (hc' : c' ∈ e.children) (path : String) (hne : c.segment all n ≠ c'.segment all n') :
    Apart (path ++ "/" ++ c.segment all n) (path ++ "/" ++ c'.segment all n') := by
  rintro x ⟨r, hr, hx⟩ ⟨r', hr', heq⟩
  rw [hx] at heq
  simp only [String.toList_append, List.append_assoc, List.append_cancel_left_eq] at heq
  have hsame := Text.append_inj_of_isSetOff (h.not_mem_segment hc) (h.not_mem_segment hc') hr hr'
    heq
  exact hne (String.toList_inj.1 hsame.1)

theorem HasClearTags.pairwise_childPathsFrom (h : e.HasClearTags) (path : String) :
    ∀ {es : List Element} (before : List QName), (∀ c ∈ es, c ∈ e.children) →
      (es.map (·.name)).Sublist all → (childPathsFrom path all before es).Pairwise Apart
  | [], _, _, _ => .nil
  | c :: rest, before, hes, hall => by
    have hc := hes c List.mem_cons_self
    have hrest : ∀ c' ∈ rest, c' ∈ e.children := fun c' hc' => hes c' (List.mem_cons_of_mem _ hc')
    rw [childPathsFrom, String.append_assoc]
    refine .cons (fun q hq => ?_) (h.pairwise_childPathsFrom path (c.name :: before) hrest
      ((List.sublist_cons_self ..).trans hall))
    obtain ⟨c', hc', n, hn, rfl⟩ := mem_childPathsFrom hq
    refine h.apart_segments hc (hrest c' hc') path (n := before.count c.name + 1) fun heq => ?_
    obtain ⟨hname, hposition⟩ := h.segment_inj hc (hrest c' hc') heq
    -- two children have the name, so both have a position
    have htwo : 1 < all.count c.name := by
      have hcount := hall.count_le c.name
      have hlater : 0 < (rest.map (·.name)).count c.name :=
        List.count_pos_iff.2 (hname ▸ List.mem_map_of_mem hc')
      rw [List.map_cons, List.count_cons_self] at hcount
      omega
    rw [← hname, List.count_cons_self, ← hposition htwo] at hn
    exact absurd hn (Nat.lt_irrefl _)

/-- The paths of children are apart if their tags are clear. -/
theorem HasClearTags.pairwise_childPaths (h : e.HasClearTags) (path : String) :
    (e.childPaths path).Pairwise Apart :=
  h.pairwise_childPathsFrom path [] (fun _ hc => hc) (List.Sublist.refl _)

/-! ## Positions -/

/-- The paths of `k` children with one tag, in order: a child that is alone has no position. -/
def numbered (path tag : String) (k : Nat) : List String :=
  if k = 1 then [path ++ "/" ++ tag]
  else (List.range k).map fun i => path ++ "/" ++ (tag ++ ("[" ++ toString (i + 1) ++ "]"))

theorem filter_childPathsFrom (path : String) {tag : String} {name : QName} :
    ∀ {es : List Element} (before : List QName), (∀ c ∈ es, c.tag = tag ↔ c.name = name) →
      ((es.zip (childPathsFrom path all before es)).filter fun x => x.1.tag = tag).map Prod.snd =
        (List.range' (before.count name + 1) ((es.map (·.name)).count name)).map fun n =>
          path ++ "/" ++ (tag ++ if 1 < all.count name then "[" ++ toString n ++ "]" else "")
  | [], _, _ => rfl
  | c :: rest, before, h => by
    have hrest := filter_childPathsFrom path (c.name :: before)
      fun c' hc' => h c' (List.mem_cons_of_mem _ hc')
    have hc := h c List.mem_cons_self
    rw [childPathsFrom, List.zip_cons_cons, List.map_cons]
    by_cases hname : c.name = name
    · obtain rfl := hc.2 hname
      subst hname
      rw [List.filter_cons_of_pos (by simp), List.map_cons, hrest, List.count_cons_self,
        List.count_cons_self, List.range'_succ, List.map_cons, String.append_assoc]
    · rw [List.filter_cons_of_neg (by simpa [hc] using hname), hrest,
        List.count_cons_of_ne hname, List.count_cons_of_ne hname]

/-- The children with one tag are numbered in their order. -/
theorem HasClearTags.numbered_childPaths (h : e.HasClearTags) (path tag : String) :
    ((e.children.zip (e.childPaths path)).filter fun x => x.1.tag = tag).map Prod.snd =
      numbered path tag (e.children.countP fun c => c.tag = tag) := by
  by_cases hnone : ∀ c ∈ e.children, ¬c.tag = tag
  · have hfilter : (e.children.zip (e.childPaths path)).filter (fun x => x.1.tag = tag) = [] :=
      List.filter_eq_nil_iff.2 fun x hx => by simpa using hnone x.1 (List.of_mem_zip hx).1
    have hcount : e.children.countP (fun c => c.tag = tag) = 0 :=
      List.countP_eq_zero.2 fun c hc => by simpa using hnone c hc
    rw [hfilter, hcount]
    rfl
  · obtain ⟨c, hc, rfl⟩ : ∃ c ∈ e.children, c.tag = tag := by simpa using hnone
    have hagree : ∀ x ∈ e.children, x.tag = c.tag ↔ x.name = c.name := fun x hx => h.agree x hx c hc
    have hcount : (e.children.map (·.name)).count c.name =
        e.children.countP fun x => x.tag = c.tag := by
      rw [List.count, List.countP_map]
      exact List.countP_congr fun x hx => by simpa using (hagree x hx).symm
    have hpos : 0 < e.children.countP fun x => x.tag = c.tag :=
      List.countP_pos_iff.2 ⟨c, hc, by simp⟩
    rw [childPaths, filter_childPathsFrom path [] hagree, hcount, numbered]
    by_cases hone : e.children.countP (fun x => x.tag = c.tag) = 1
    · rw [hone]
      simp
    · rw [if_neg hone, List.range'_eq_map_range, List.map_map]
      have hmany : 1 < e.children.countP fun x => x.tag = c.tag := by omega
      exact List.map_congr_left fun i _ => by simp [hmany, Nat.add_comm]

/-! ## Paths of all elements -/

mutual

/-- The element at a path and its descendants in document order, with their paths. -/
def placed (path : String) : Element → List (String × Element)
  | e@⟨_, _, _, _, children, _⟩ => (path, e) :: placedAll (e.childPaths path) children

/-- The elements of trees at paths in document order, with their paths. -/
def placedAll : List String → List Element → List (String × Element)
  | path :: paths, e :: rest => placed path e ++ placedAll paths rest
  | _, _ => []

end

theorem placed_eq (path : String) (e : Element) :
    e.placed path = (path, e) :: placedAll (e.childPaths path) e.children := by
  cases e
  rw [placed]

theorem IsBelow.refl (path : String) : IsBelow path path := ⟨[], .inl rfl, (List.append_nil _).symm⟩

/-- What is below a child is below its parent, and not the parent. -/
theorem IsBelow.of_child {path p q : String} (hp : p ∈ e.childPaths path) (h : IsBelow p q) :
    IsBelow path q ∧ q ≠ path := by
  obtain ⟨c, -, n, -, rfl⟩ := mem_childPathsFrom hp
  obtain ⟨r, -, hq⟩ := h
  rw [String.toList_append, String.toList_append, List.append_assoc, List.append_assoc] at hq
  refine ⟨⟨_, .inr ⟨(c.segment _ n).toList ++ r, rfl⟩, hq⟩, ?_⟩
  rintro rfl
  have hlength := congrArg List.length hq
  simp at hlength

mutual

theorem isBelow_of_mem_placed : ∀ {path : String} {e : Element} {x : String × Element},
    x ∈ e.placed path → IsBelow path x.1
  | path, ⟨_, _, _, _, children, _⟩, x, h => by
    rw [placed] at h
    rcases List.mem_cons.1 h with rfl | h
    · exact .refl path
    · obtain ⟨p, hp, hx⟩ := exists_of_mem_placedAll h
      exact (hx.of_child hp).1

theorem exists_of_mem_placedAll : ∀ {paths : List String} {es : List Element}
    {x : String × Element}, x ∈ placedAll paths es → ∃ p ∈ paths, IsBelow p x.1
  | path :: paths, e :: rest, x, h => by
    rw [placedAll] at h
    rcases List.mem_append.1 h with h | h
    · exact ⟨path, List.mem_cons_self, isBelow_of_mem_placed h⟩
    · obtain ⟨p, hp, hx⟩ := exists_of_mem_placedAll h
      exact ⟨p, List.mem_cons_of_mem _ hp, hx⟩
  | [], _, _, h => by simp [placedAll] at h
  | _ :: _, [], _, h => by simp [placedAll] at h

end

/-- The children of the element and of its descendants have clear tags. -/
def IsClear (e : Element) : Prop := ∀ x ∈ e.outline 0, x.2.HasClearTags

instance (e : Element) : Decidable e.IsClear := List.decidableBAll ..

mutual

/-- The elements of a tree with clear tags have distinct paths. -/
theorem nodup_placed : ∀ {e : Element} {level : Nat}, (∀ x ∈ e.outline level, x.2.HasClearTags) →
    ∀ path, ((e.placed path).map Prod.fst).Nodup
  | ⟨_, _, _, _, children, _⟩, level, h, path => by
    rw [outline] at h
    have hclear := h _ List.mem_cons_self
    rw [placed, List.map_cons, List.nodup_cons]
    refine ⟨fun hmem => ?_, nodup_placedAll (fun x hx => h x (List.mem_cons_of_mem _ hx))
      (hclear.pairwise_childPaths path)⟩
    obtain ⟨x, hx, hpath⟩ := List.mem_map.1 hmem
    obtain ⟨p, hp, hbelow⟩ := exists_of_mem_placedAll hx
    exact (hbelow.of_child hp).2 hpath

theorem nodup_placedAll : ∀ {es : List Element} {paths : List String} {level : Nat},
    (∀ x ∈ outlineAll level es, x.2.HasClearTags) → paths.Pairwise Apart →
      ((placedAll paths es).map Prod.fst).Nodup
  | e :: rest, path :: paths, level, hes, hapart => by
    rw [outlineAll] at hes
    obtain ⟨hfirst, hrest⟩ := List.pairwise_cons.1 hapart
    rw [placedAll, List.map_append, List.nodup_append]
    refine ⟨nodup_placed (fun x hx => hes x (List.mem_append_left _ hx)) path,
      nodup_placedAll (fun x hx => hes x (List.mem_append_right _ hx)) hrest, ?_⟩
    intro q hq q' hq' heq
    obtain ⟨x, hx, rfl⟩ := List.mem_map.1 hq
    obtain ⟨y, hy, rfl⟩ := List.mem_map.1 hq'
    obtain ⟨p, hp, hbelow⟩ := exists_of_mem_placedAll hy
    exact hfirst p hp y.1 (heq ▸ isBelow_of_mem_placed hx) hbelow
  | [], [], _, _, _ => by simp [placedAll]
  | [], _ :: _, _, _, _ => by simp [placedAll]
  | _ :: _, [], _, _, _ => by simp [placedAll]

end

end Element

end Conform
