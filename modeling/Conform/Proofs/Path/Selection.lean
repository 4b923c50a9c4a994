import Conform.Proofs.Identity.Defaults
import Conform.Proofs.Path.Compilation
/-!
# What paths select

The steps of a branch lead from a context to nodes of its tree. A path selects the nodes to which
one of its branches leads, each of them once, branch by branch: as a place in the tree and the name
of an attribute belong to one node only, no two nodes are taken for the same.
-/

namespace Conform

namespace Decoded

/-- The element at a place under an element. -/
def at? : Decoded → List Nat → Option Decoded
  | d, [] => some d
  | d, i :: place => d.children[i]?.bind fun c => c.at? place

theorem at?_append (way way' : List Nat) : ∀ d : Decoded,
    d.at? (way ++ way') = (d.at? way).bind fun c => c.at? way' := by
  induction way with
  | nil => exact fun _ => rfl
  | cons i way ih =>
      intro d
      rw [List.cons_append, at?, at?, Option.bind_assoc]
      exact congrArg _ (funext ih)

/-- A value of an attribute, or the recorded default of one that is not written. -/
def HasAttribute (d : Decoded) (name : QName) (value : Json) : Prop :=
  d.attributes.get? name = some value ∨
    d.attributes.get? name = none ∧ d.attributeDefaults.get? name = some value

theorem mem_allAttributes {d : Decoded} {name : QName} {value : Json} :
    (name, value) ∈ d.allAttributes ↔ d.HasAttribute name value := by
  have hnone : d.attributes.contains name = false ↔ d.attributes.get? name = none := by
    simp [Listing.contains, Listing.get?]
  rw [allAttributes, List.mem_append, List.mem_filter, Listing.mem_entries_iff,
    Listing.mem_entries_iff, Bool.not_eq_true', hnone, and_comm]
  rfl

theorem HasAttribute.unique {d : Decoded} {name : QName} {value value' : Json}
    (h : d.HasAttribute name value) (h' : d.HasAttribute name value') : value = value' := by
  rcases h with h | ⟨h, hdefault⟩
  · rcases h' with h' | ⟨h', -⟩
    · exact Option.some.inj (h.symm.trans h')
    · rw [h] at h'
      cases h'
  · rcases h' with h' | ⟨-, hdefault'⟩
    · rw [h] at h'
      cases h'
    · exact Option.some.inj (hdefault.symm.trans hdefault')

end Decoded

namespace Located

/-- Positions of children lead from one element to another. -/
structure LeadsTo (l : Located) (way : List Nat) (m : Located) : Prop where
  place : m.place = l.place ++ way
  element : l.element.at? way = some m.element

variable {l m c : Located} {way : List Nat} {i : Nat}

theorem leadsTo_nil : l.LeadsTo [] m ↔ m = l := by
  constructor
  · rintro ⟨hplace, helement⟩
    cases l
    cases m
    rw [List.append_nil] at hplace
    cases hplace
    cases helement
    rfl
  · rintro rfl
    exact ⟨(List.append_nil _).symm, rfl⟩

theorem leadsTo_singleton : l.LeadsTo [i] c ↔
    c.place = l.place ++ [i] ∧ l.element.children[i]? = some c.element := by
  have hchild : l.element.at? [i] = l.element.children[i]? := by
    rw [Decoded.at?]
    cases l.element.children[i]? <;> rfl
  rw [← hchild]
  exact ⟨fun h => ⟨h.place, h.element⟩, fun h => ⟨h.1, h.2⟩⟩

theorem leadsTo_cons : l.LeadsTo (i :: way) m ↔ ∃ c, l.LeadsTo [i] c ∧ c.LeadsTo way m := by
  constructor
  · rintro ⟨hplace, helement⟩
    obtain ⟨d, hd, hat⟩ := Option.bind_eq_some_iff.1 helement
    exact ⟨⟨l.place ++ [i], d⟩, leadsTo_singleton.2 ⟨rfl, hd⟩, by simpa using hplace, hat⟩
  · rintro ⟨c, hc, hplace, helement⟩
    obtain ⟨hcplace, hchild⟩ := leadsTo_singleton.1 hc
    refine ⟨by simpa [hcplace] using hplace, ?_⟩
    rw [Decoded.at?, hchild]
    exact helement

theorem LeadsTo.trans {way' : List Nat} (h : l.LeadsTo way m) (h' : m.LeadsTo way' c) :
    l.LeadsTo (way ++ way') c where
  place := by rw [h'.place, h.place, List.append_assoc]
  element := by rw [Decoded.at?_append, h.element, Option.bind_some, h'.element]

/-- A place belongs to one element. -/
theorem LeadsTo.eq_of_place {way' : List Nat} (h : l.LeadsTo way m) (h' : l.LeadsTo way' c)
    (hplace : m.place = c.place) : m = c := by
  obtain rfl : way = way' := by
    rw [h.place, h'.place] at hplace
    exact List.append_cancel_left hplace
  have helement : m.element = c.element := Option.some.inj (h.element.symm.trans h'.element)
  cases m
  cases c
  cases hplace
  cases helement
  rfl

theorem mem_childrenFrom {place : List Nat} {i : Nat} {ds : List Decoded} :
    c ∈ childrenFrom place i ds ↔ ∃ j, ds[j]? = some c.element ∧ c.place = place ++ [i + j] := by
  induction ds generalizing i with
  | nil => simp [childrenFrom]
  | cons d rest ih =>
      rw [childrenFrom, List.mem_cons, ih]
      constructor
      · rintro (rfl | ⟨j, hj, hplace⟩)
        · exact ⟨0, rfl, rfl⟩
        · exact ⟨j + 1, hj, by rw [hplace, Nat.add_right_comm, Nat.add_assoc]⟩
      · rintro ⟨j, hj, hplace⟩
        cases j with
        | zero =>
            cases c
            cases hplace
            exact .inl (congrArg _ (Option.some.inj hj).symm)
        | succ j => exact .inr ⟨j, hj, by rw [hplace, Nat.add_right_comm, Nat.add_assoc]⟩

theorem mem_children : c ∈ l.children ↔ ∃ i, l.LeadsTo [i] c := by
  simp only [children, mem_childrenFrom, leadsTo_singleton, Nat.zero_add, and_comm]

theorem mem_below_of_children
    (h : m ∈ belowAll l.place 0 l.element.children ↔ ∃ c ∈ l.children, ∃ way, c.LeadsTo way m) :
    m ∈ below l.place l.element ↔ ∃ way, l.LeadsTo way m := by
  rw [below_eq, List.mem_cons, h]
  constructor
  · rintro (rfl | ⟨c, hc, way, hway⟩)
    · exact ⟨[], leadsTo_nil.2 rfl⟩
    · obtain ⟨i, hi⟩ := mem_children.1 hc
      exact ⟨i :: way, leadsTo_cons.2 ⟨c, hi, hway⟩⟩
  · rintro ⟨way, hway⟩
    cases way with
    | nil => exact .inl (leadsTo_nil.1 hway)
    | cons i way =>
        obtain ⟨c, hc, hway⟩ := leadsTo_cons.1 hway
        exact .inr ⟨c, mem_children.2 ⟨i, hc⟩, way, hway⟩

mutual

theorem mem_below : ∀ {place : List Nat} {d : Decoded},
    m ∈ below place d ↔ ∃ way, LeadsTo ⟨place, d⟩ way m
  | place, ⟨tag, path, attributes, text, children, isNil, declaration, defaults, default⟩ =>
    mem_below_of_children (l := ⟨place, ⟨tag, path, attributes, text, children, isNil, declaration,
      defaults, default⟩⟩) mem_belowAll

theorem mem_belowAll : ∀ {place : List Nat} {i : Nat} {ds : List Decoded},
    m ∈ belowAll place i ds ↔ ∃ c ∈ childrenFrom place i ds, ∃ way, c.LeadsTo way m
  | place, i, [] => by simp [belowAll, childrenFrom]
  | place, i, d :: rest => by
    rw [belowAll, List.mem_append, mem_below, mem_belowAll, childrenFrom]
    simp only [List.mem_cons, exists_eq_or_imp]

end

end Located

/-! ## Steps -/

namespace Path

/-- Steps lead from an element to a node, one after the other. -/
inductive Reaches : List (Step NameTest) → Located → Node → Prop
  | here {l : Located} : Reaches [] l (.element l)
  | self {rest : List (Step NameTest)} {l : Located} {n : Node} :
    Reaches rest l n → Reaches (.self :: rest) l n
  | descendants {rest : List (Step NameTest)} {l m : Located} {way : List Nat} {n : Node} :
    l.LeadsTo way m → Reaches rest m n → Reaches (.descendants :: rest) l n
  | child {t : NameTest} {rest : List (Step NameTest)} {l c : Located} {i : Nat} {n : Node} :
    l.LeadsTo [i] c → t.passes c.element.tag = true → Reaches rest c n →
    Reaches (.child t :: rest) l n
  | onAttributes {t : NameTest} {l : Located} {name : QName} {value : Json} :
    l.element.HasAttribute name value → t.passes name = true →
    Reaches [.onAttributes t] l (.onAttribute l name value)

variable {context : Decoded} {steps : List (Step NameTest)} {n m : Node}

/-- Steps are followed to the nodes to which they lead. -/
theorem mem_follow (h : ∀ t, .onAttributes t ∉ steps.dropLast) {here : List Located} :
    n ∈ follow steps here ↔ ∃ l ∈ here, Reaches steps l n := by
  induction steps generalizing here with
  | nil =>
      rw [follow, List.mem_map]
      constructor
      · rintro ⟨l, hl, rfl⟩
        exact ⟨l, hl, .here⟩
      · rintro ⟨l, hl, h⟩
        cases h
        exact ⟨l, hl, rfl⟩
  | cons step rest ih =>
      have hrest : ∀ t, .onAttributes t ∉ rest.dropLast := fun t ht => by
        cases rest with
        | nil => cases ht
        | cons next rest => exact h t (List.mem_cons_of_mem _ ht)
      cases step with
      | self =>
          rw [follow, ih hrest]
          constructor
          · rintro ⟨l, hl, h⟩
            exact ⟨l, hl, .self h⟩
          · rintro ⟨l, hl, h⟩
            cases h with
            | self h => exact ⟨l, hl, h⟩
      | descendants =>
          rw [follow, ih hrest]
          constructor
          · rintro ⟨m, hm, h⟩
            obtain ⟨l, hl, hbelow⟩ := List.mem_flatMap.1 hm
            obtain ⟨way, hway⟩ := Located.mem_below.1 hbelow
            exact ⟨l, hl, .descendants hway h⟩
          · rintro ⟨l, hl, h⟩
            cases h with
            | descendants hway h =>
                exact ⟨_, List.mem_flatMap.2 ⟨l, hl, Located.mem_below.2 ⟨_, hway⟩⟩, h⟩
      | child t =>
          rw [follow, ih hrest]
          constructor
          · rintro ⟨c, hc, h⟩
            obtain ⟨l, hl, hchild⟩ := List.mem_flatMap.1 hc
            obtain ⟨hchild, htest⟩ := List.mem_filter.1 hchild
            obtain ⟨i, hi⟩ := Located.mem_children.1 hchild
            exact ⟨l, hl, .child hi htest h⟩
          · rintro ⟨l, hl, h⟩
            cases h with
            | child hi htest h =>
                refine ⟨_, List.mem_flatMap.2 ⟨l, hl, ?_⟩, h⟩
                exact List.mem_filter.2 ⟨Located.mem_children.2 ⟨_, hi⟩, htest⟩
      | onAttributes t =>
          -- there is nothing behind a step to attributes
          obtain rfl : rest = [] := by
            by_contra hne
            exact h t (by rw [List.dropLast_cons_of_ne_nil hne]; exact List.mem_cons_self)
          rw [follow, List.mem_flatMap]
          refine exists_congr fun l => and_congr_right fun hl => ?_
          rw [Located.attributesPassing, List.mem_map]
          constructor
          · rintro ⟨⟨name, value⟩, ha, rfl⟩
            obtain ⟨ha, htest⟩ := List.mem_filter.1 ha
            exact .onAttributes (Decoded.mem_allAttributes.1 ha) htest
          · intro h
            cases h with
            | onAttributes ha htest =>
                exact ⟨(_, _), List.mem_filter.2 ⟨Decoded.mem_allAttributes.2 ha, htest⟩, rfl⟩

end Path

/-! ## Nodes under an element -/

namespace Node

variable {l m : Located} {n n' : Node}

/-- An element under another one, or an attribute of such an element. -/
def IsUnder (l : Located) : Node → Prop
  | element m => ∃ way, l.LeadsTo way m
  | onAttribute m name value => (∃ way, l.LeadsTo way m) ∧ m.element.HasAttribute name value

theorem IsUnder.of_leadsTo {way : List Nat} (h : n.IsUnder m) (hm : l.LeadsTo way m) :
    n.IsUnder l := by
  cases n with
  | element =>
      obtain ⟨way', h⟩ := h
      exact ⟨_, hm.trans h⟩
  | onAttribute =>
      obtain ⟨⟨way', h⟩, ha⟩ := h
      exact ⟨⟨_, hm.trans h⟩, ha⟩

/-- Nodes under an element are told apart by their keys. -/
theorem IsUnder.eq_of_key (h : n.IsUnder l) (h' : n'.IsUnder l) (hkey : n.key = n'.key) :
    n = n' := by
  obtain ⟨hplace, hname⟩ := Prod.mk.injEq .. |>.mp hkey
  cases n with
  | element m =>
      cases n' with
      | element m' =>
          obtain ⟨⟨_, h⟩, ⟨_, h'⟩⟩ := And.intro h h'
          rw [h.eq_of_place h' hplace]
      | onAttribute => cases hname
  | onAttribute m name value =>
      cases n' with
      | element => cases hname
      | onAttribute m' name' value' =>
          obtain ⟨⟨⟨_, h⟩, ha⟩, ⟨⟨_, h'⟩, ha'⟩⟩ := And.intro h h'
          obtain rfl := h.eq_of_place h' hplace
          obtain rfl : name = name' := Option.some.inj hname
          rw [ha.unique ha']

end Node

namespace Path

variable {context : Decoded} {steps : List (Step NameTest)} {l : Located} {n : Node}

theorem Reaches.isUnder (h : Reaches steps l n) : n.IsUnder l := by
  induction h with
  | here => exact ⟨[], Located.leadsTo_nil.2 rfl⟩
  | self _ ih => exact ih
  | descendants hway _ ih => exact ih.of_leadsTo hway
  | child hi _ _ ih => exact ih.of_leadsTo hi
  | onAttributes ha _ => exact ⟨⟨[], Located.leadsTo_nil.2 rfl⟩, ha⟩

/-! ## Unions -/

/-- What a union adds comes behind what is there and has new keys. -/
theorem exists_union : ∀ (more nodes : List Node), (nodes.map Node.key).Nodup →
    ∃ new, union nodes more = nodes ++ new ∧ ((nodes ++ new).map Node.key).Nodup ∧
      (∀ n ∈ new, n ∈ more) ∧ ∀ n ∈ more, n.key ∈ (nodes ++ new).map Node.key
  | [], nodes, h => ⟨[], (List.append_nil _).symm, by rwa [List.append_nil], nofun, nofun⟩
  | m :: more, nodes, h => by
    have hunion : union nodes (m :: more) =
        union (if nodes.any (·.key = m.key) then nodes else nodes ++ [m]) more := rfl
    rw [hunion]
    split
    · rename_i hany
      obtain ⟨found, hfound, hkey⟩ := List.any_eq_true.1 hany
      obtain ⟨new, heq, hnodup, hnew, hall⟩ := exists_union more nodes h
      refine ⟨new, heq, hnodup, fun n hn => List.mem_cons_of_mem _ (hnew n hn),
        List.forall_mem_cons.2 ⟨?_, hall⟩⟩
      exact List.mem_map.2 ⟨found, List.mem_append_left _ hfound, by simpa using hkey⟩
    · rename_i hany
      have hkey : m.key ∉ nodes.map Node.key := by simpa using hany
      have hnodup : ((nodes ++ [m]).map Node.key).Nodup := by
        rw [List.map_append, List.nodup_append]
        refine ⟨h, List.nodup_singleton _, ?_⟩
        rintro k hk _ hm rfl
        exact hkey (List.mem_singleton.1 hm ▸ hk)
      obtain ⟨new, heq, hnodup, hnew, hall⟩ := exists_union more (nodes ++ [m]) hnodup
      rw [List.append_assoc, List.singleton_append] at heq hnodup hall
      refine ⟨m :: new, heq, hnodup, List.forall_mem_cons.2 ⟨List.mem_cons_self, fun n hn =>
        List.mem_cons_of_mem _ (hnew n hn)⟩, List.forall_mem_cons.2 ⟨?_, hall⟩⟩
      exact List.mem_map_of_mem (List.mem_append_right _ List.mem_cons_self)

/-- The branches of a path lead from its context to a node. -/
def Leads (branches : List (List (Step NameTest))) (context : Decoded) (n : Node) : Prop :=
  ∃ steps ∈ branches, Reaches steps ⟨[], context⟩ n

/-- What branches add to what is there comes behind it. -/
theorem exists_select {branches : List (List (Step NameTest))}
    (hshape : ∀ steps ∈ branches, ∀ t, .onAttributes t ∉ steps.dropLast) {found : List Node}
    (hfound : ∀ n ∈ found, n.IsUnder ⟨[], context⟩) (hnodup : (found.map Node.key).Nodup) :
    ∃ new, branches.foldl (fun found steps => union found (follow steps [⟨[], context⟩])) found =
        found ++ new ∧ ((found ++ new).map Node.key).Nodup ∧
      ∀ n, n ∈ found ++ new ↔ n ∈ found ∨ Leads branches context n := by
  induction branches generalizing found with
  | nil => exact ⟨[], (List.append_nil _).symm, by rwa [List.append_nil], by simp [Leads]⟩
  | cons steps rest ih =>
      obtain ⟨hsteps, hrest⟩ := List.forall_mem_cons.1 hshape
      have hfollow (n : Node) :
          n ∈ follow steps [⟨[], context⟩] ↔ Reaches steps ⟨[], context⟩ n := by
        rw [mem_follow hsteps]
        simp
      obtain ⟨new, hunion, hnodup, hnew, hall⟩ :=
        exists_union (follow steps [⟨[], context⟩]) found hnodup
      have hunder : ∀ n ∈ found ++ new, n.IsUnder ⟨[], context⟩ := by
        refine List.forall_mem_append.2 ⟨hfound, fun n hn => ?_⟩
        exact ((hfollow n).1 (hnew n hn)).isUnder
      have hmem (n : Node) : n ∈ found ++ new ↔ n ∈ found ∨ Reaches steps ⟨[], context⟩ n := by
        constructor
        · intro hn
          exact (List.mem_append.1 hn).imp_right fun hn => (hfollow n).1 (hnew n hn)
        · rintro (hn | hn)
          · exact List.mem_append_left _ hn
          · -- the key of a node is there only if the node is
            obtain ⟨m, hm, hkey⟩ := List.mem_map.1 (hall n ((hfollow n).2 hn))
            rwa [← (hunder m hm).eq_of_key hn.isUnder hkey]
      obtain ⟨more, hmore, hnodup, hiff⟩ := ih hrest hunder hnodup
      rw [List.append_assoc] at hmore hnodup
      refine ⟨new ++ more, by rw [List.foldl_cons, hunion, hmore], hnodup, fun n => ?_⟩
      rw [← List.append_assoc, hiff, hmem, or_assoc]
      simp [Leads]

/-- What a path selects from a context: the nodes to which its branches lead, each once, those of
the first branches first. -/
structure Selects (p : Path) (context : Decoded) : Prop where
  mem_iff : ∀ n, n ∈ p.select context ↔ Leads p.branches context n
  once : ((p.select context).map Node.key).Nodup
  in_order : ∀ earlier later, p.branches = earlier ++ later →
    ∃ first more, p.select context = first ++ more ∧
      (∀ n, n ∈ first ↔ Leads earlier context n) ∧ ∀ n ∈ more, ¬ Leads earlier context n

theorem select_selects {p : Path}
    (hshape : ∀ steps ∈ p.branches, ∀ t, .onAttributes t ∉ steps.dropLast) (context : Decoded) :
    Selects p context := by
  have hnone : ∀ n ∈ ([] : List Node), n.IsUnder ⟨[], context⟩ := nofun
  obtain ⟨found, hfound, hnodup, hiff⟩ := exists_select hshape hnone List.nodup_nil
  refine ⟨fun n => ?_, ?_, ?_⟩
  · rw [select, hfound, hiff]
    simp
  · rw [select, hfound]
    exact hnodup
  · intro earlier later hbranches
    rw [hbranches] at hshape
    obtain ⟨hearlier, hlater⟩ := List.forall_mem_append.1 hshape
    obtain ⟨first, hfirst, hnodup, hiff⟩ := exists_select hearlier hnone List.nodup_nil
    rw [List.nil_append] at hfirst hnodup hiff
    have hleads (n : Node) : n ∈ first ↔ Leads earlier context n := by
      rw [hiff]
      simp
    have hunder : ∀ n ∈ first, n.IsUnder ⟨[], context⟩ := fun n hn => by
      obtain ⟨_, _, h⟩ := (hleads n).1 hn
      exact h.isUnder
    obtain ⟨more, hmore, hnodup, -⟩ := exists_select hlater hunder hnodup
    refine ⟨first, more, ?_, hleads, fun n hn h => ?_⟩
    · rw [select, hbranches, List.foldl_append, hfirst, hmore]
    · rw [List.map_append, List.nodup_append] at hnodup
      exact hnodup.2.2 _ (List.mem_map_of_mem ((hleads n).2 h)) _ (List.mem_map_of_mem hn) rfl

/-- Where no step goes to attributes, no attribute is reached. -/
theorem Reaches.isElement (h : Reaches steps l n) (hsteps : ∀ t, .onAttributes t ∉ steps) :
    ∃ m, n = .element m := by
  induction h with
  | here => exact ⟨_, rfl⟩
  | self _ ih => exact ih fun t ht => hsteps t (List.mem_cons_of_mem _ ht)
  | descendants _ _ ih => exact ih fun t ht => hsteps t (List.mem_cons_of_mem _ ht)
  | child _ _ _ ih => exact ih fun t ht => hsteps t (List.mem_cons_of_mem _ ht)
  | onAttributes => exact absurd List.mem_cons_self (hsteps _)

/-- A compiled path selects the nodes that it reaches, and a selector elements only. -/
theorem select_exact {source : String} {scope : Scope} {p : Path}
    (h : compileSelector source scope = .ok p ∨ compileField source scope = .ok p)
    (context : Decoded) : Selects p context ∧
      (compileSelector source scope = .ok p → ∀ n ∈ p.select context, ∃ l, n = .element l) := by
  have hselector (h : compileSelector source scope = .ok p) :
      ∀ steps ∈ p.branches, IsBranch false steps :=
    ((compile_compiles false "selector" source scope).shape p h).2
  have hfield (h : compileField source scope = .ok p) :
      ∀ steps ∈ p.branches, IsBranch true steps :=
    ((compile_compiles true "field" source scope).shape p h).2
  have hselects : Selects p context := select_selects (fun steps hsteps => by
    rcases h with h | h
    · exact (hselector h steps hsteps).attributes
    · exact (hfield h steps hsteps).attributes) context
  refine ⟨hselects, fun h n hn => ?_⟩
  obtain ⟨steps, hsteps, hreaches⟩ := (hselects.mem_iff n).1 hn
  exact hreaches.isElement ((hselector h steps hsteps).selector rfl)

/-- Elements that two branches reach come where the first of the branches has them. -/
theorem select_exact_sample : ∃ p, compileSelector ".//a | . | a" .empty = .ok p ∧
    let inner := Decoded.leaf (QName.plain "a") "/r/a/a"
    let tree := { Decoded.leaf (QName.plain "r") "/r" with
      children := [{ Decoded.leaf (QName.plain "a") "/r/a" with children := [inner] }] }
    Selects p tree ∧ (p.select tree).map Node.key = [([0], none), ([0, 0], none), ([], none)] := by
  have h : compileSelector ".//a | . | a" .empty = .ok ⟨".//a | . | a",
      [[.descendants, .child (.named (QName.plain "a"))], [.self],
        [.child (.named (QName.plain "a"))]]⟩ := by decide +kernel
  exact ⟨_, h, (select_exact (.inl h) _).1, rfl⟩

end Path

end Conform
