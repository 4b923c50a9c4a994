import Conform.Listing
import Mathlib.Data.List.Nodup
import Mathlib.Tactic.Common
/-!
# Entries of listings

What is put into a listing under keys that it does not have comes behind what is there, as if it
were put into a listing of its own and that put behind the first.
-/

namespace Conform

namespace Listing

variable {κ ν : Type} [DecidableEq κ]

/-- A key that is not there comes last. -/
theorem put_append {k : κ} {v : ν} {es fs : List (κ × ν)} (h : k ∉ es.map Prod.fst) :
    put k v (es ++ fs) = es ++ put k v fs := by
  induction es with
  | nil => rfl
  | cons e rest ih =>
      rw [List.map_cons, List.mem_cons, not_or] at h
      rw [List.cons_append, put, if_neg (Ne.symm h.1), ih h.2]
      rfl

theorem mem_put {k : κ} {v : ν} {e : κ × ν} : ∀ {es : List (κ × ν)}, e ∈ put k v es →
    e = (k, v) ∨ e ∈ es
  | [], h => .inl (List.mem_singleton.1 h)
  | e' :: rest, h => by
    rw [put] at h
    split at h
    · exact (List.mem_cons.1 h).imp_right (List.mem_cons_of_mem _)
    · rcases List.mem_cons.1 h with rfl | h
      · exact .inr List.mem_cons_self
      · exact (mem_put h).imp_right (List.mem_cons_of_mem _)

/-- What is put in under other keys comes behind what was there. -/
theorem entries_foldl_insert (l : Listing κ ν) {ds : List (κ × ν)} (hnew : ∀ d ∈ ds, d.1 ∉ l.keys) :
    (ds.foldl (fun l d => l.insert d.1 d.2) l).entries = l.entries ++ (ofList ds).entries := by
  have hfold : ∀ (ds : List (κ × ν)) (m l' : Listing κ ν), (∀ d ∈ ds, d.1 ∉ l.keys) →
      l'.entries = l.entries ++ m.entries →
        (ds.foldl (fun l d => l.insert d.1 d.2) l').entries =
          l.entries ++ (ds.foldl (fun l d => l.insert d.1 d.2) m).entries := by
    intro ds
    induction ds with
    | nil => exact fun _ _ _ h => h
    | cons d ds ih =>
        intro m l' hnew hentries
        refine ih _ _ (fun d' hd' => hnew d' (List.mem_cons_of_mem _ hd')) ?_
        show put d.1 d.2 l'.entries = l.entries ++ put d.1 d.2 m.entries
        rw [hentries, put_append (hnew d List.mem_cons_self)]
  exact hfold ds empty l hnew (List.append_nil _).symm

/-- A listing holds nothing that was not put in. -/
theorem mem_ofList {ds : List (κ × ν)} {a : κ × ν} (h : a ∈ (ofList ds).entries) : a ∈ ds := by
  have hfold : ∀ (ds : List (κ × ν)) (l : Listing κ ν),
      a ∈ (ds.foldl (fun l d => l.insert d.1 d.2) l).entries → a ∈ l.entries ∨ a ∈ ds := by
    intro ds
    induction ds with
    | nil => exact fun _ h => .inl h
    | cons d ds ih =>
        intro l h
        rcases ih _ h with hput | hlater
        · exact (mem_put hput).elim (fun heq => .inr (heq ▸ List.mem_cons_self)) .inl
        · exact .inr (List.mem_cons_of_mem _ hlater)
  exact (hfold ds empty h).resolve_left List.not_mem_nil

theorem get?_insert_cases {l : Listing κ ν} {k k' : κ} {v v' : ν}
    (h : (l.insert k v).get? k' = some v') : l.get? k' = some v' ∨ v' = v := by
  rw [get?_insert] at h
  split at h
  · exact .inr (Option.some.inj h).symm
  · exact .inl h

/-- What stands under a key is among the values. -/
theorem mem_values_of_get? {l : Listing κ ν} {k : κ} {v : ν} (h : l.get? k = some v) :
    v ∈ l.values := by
  obtain ⟨e, hfind, rfl⟩ := Option.map_eq_some_iff.1 h
  exact List.mem_map_of_mem (List.mem_of_find?_eq_some hfind)

theorem mem_entries_iff {l : Listing κ ν} {k : κ} {v : ν} :
    (k, v) ∈ l.entries ↔ l.get? k = some v := by
  constructor
  · intro h
    obtain ⟨e, hfind⟩ : ∃ e, (l.entries.find? fun e => e.1 = k) = some e :=
      Option.isSome_iff_exists.1 (List.find?_isSome.2 ⟨_, h, by simp⟩)
    have hkey : e.1 = k := by simpa using List.find?_some hfind
    have he : e = (k, v) :=
      List.inj_on_of_nodup_map l.nodup (List.mem_of_find?_eq_some hfind) h hkey
    rw [get?, hfind, he]
    rfl
  · intro h
    obtain ⟨e, hfind, rfl⟩ := Option.map_eq_some_iff.1 h
    have hkey : e.1 = k := by simpa using List.find?_some hfind
    exact hkey ▸ List.mem_of_find?_eq_some hfind

omit [DecidableEq κ] in
theorem eq_of_entries {l m : Listing κ ν} (h : l.entries = m.entries) : l = m := by
  cases l
  cases m
  cases h
  rfl

theorem mem_keys_insert {l : Listing κ ν} {k k' : κ} {v : ν} :
    k' ∈ (l.insert k v).keys ↔ k' ∈ l.keys ∨ k' = k := by
  rw [keys_insert]
  split
  · rename_i hk
    exact ⟨.inl, fun h => h.elim id fun heq => heq ▸ hk⟩
  · rw [List.mem_append, List.mem_singleton]

/-- The keys of a listing are those that were put in. -/
theorem mem_keys_ofList {ds : List (κ × ν)} {k : κ} :
    k ∈ (ofList ds).keys ↔ k ∈ ds.map Prod.fst := by
  have hfold : ∀ (ds : List (κ × ν)) (l : Listing κ ν),
      k ∈ (ds.foldl (fun l d => l.insert d.1 d.2) l).keys ↔ k ∈ l.keys ∨ k ∈ ds.map Prod.fst := by
    intro ds
    induction ds with
    | nil => simp
    | cons d ds ih =>
        intro l
        rw [List.foldl_cons, ih, mem_keys_insert, List.map_cons, List.mem_cons, or_assoc]
  rw [ofList, hfold]
  exact or_iff_right List.not_mem_nil

/-- Values under distinct keys are all kept, in their order. -/
theorem entries_ofList {ds : List (κ × ν)} (h : (ds.map Prod.fst).Nodup) :
    (ofList ds).entries = ds := by
  induction ds with
  | nil => rfl
  | cons d ds ih =>
      rw [List.map_cons, List.nodup_cons] at h
      have hnew : ∀ d' ∈ ds, d'.1 ∉ (empty.insert d.1 d.2 : Listing κ ν).keys := by
        rintro d' hd' hmem
        obtain heq : d'.1 = d.1 := by simpa [insert, keys, put, empty] using hmem
        exact h.1 (heq ▸ List.mem_map_of_mem hd')
      have hentries := entries_foldl_insert _ hnew
      rw [ih h.2] at hentries
      exact hentries

/-! ## One listing behind another -/

/-- A listing with the entries of another behind it whose keys it does not have. -/
def followedBy (l m : Listing κ ν) : Listing κ ν :=
  ⟨l.entries ++ m.entries.filter fun a => !l.contains a.1, by
    rw [List.map_append, List.nodup_append]
    refine ⟨l.nodup, m.nodup.sublist (List.filter_sublist.map _), ?_⟩
    rintro k hk _ hk' rfl
    obtain ⟨a, ha, rfl⟩ := List.mem_map.1 hk'
    have hcontains : l.contains a.1 = true := contains_iff.2 hk
    simp [hcontains] at ha⟩

theorem mem_keys_followedBy {l m : Listing κ ν} {k : κ} (h : k ∈ m.keys) :
    k ∈ (l.followedBy m).keys := by
  obtain ⟨a, ha, rfl⟩ := List.mem_map.1 h
  show a.1 ∈ (l.entries ++ _).map Prod.fst
  rw [List.map_append, List.mem_append]
  by_cases hkey : l.contains a.1 = true
  · exact .inl (contains_iff.1 hkey)
  · exact .inr (List.mem_map_of_mem (List.mem_filter.2 ⟨ha, by simpa using hkey⟩))

/-- Nothing is put behind a listing twice. -/
theorem followedBy_followedBy (l m : Listing κ ν) :
    (l.followedBy m).followedBy m = l.followedBy m := by
  have hnone : (m.entries.filter fun a => !(l.followedBy m).contains a.1) = [] := by
    refine List.filter_eq_nil_iff.2 fun a ha => ?_
    simp [contains_iff.2 (mem_keys_followedBy (l := l) (List.mem_map_of_mem ha))]
  refine eq_of_entries ?_
  show (l.followedBy m).entries ++ _ = _
  rw [hnone, List.append_nil]

/-- Entries under new keys may be put in one by one. -/
theorem foldl_insert_eq (l : Listing κ ν) {ds : List (κ × ν)} (hnew : ∀ d ∈ ds, d.1 ∉ l.keys) :
    ds.foldl (fun l d => l.insert d.1 d.2) l = l.followedBy (ofList ds) := by
  have hall : ((ofList ds).entries.filter fun a => !l.contains a.1) = (ofList ds).entries := by
    refine List.filter_eq_self.2 fun a ha => ?_
    have hkey := hnew a (mem_ofList ha)
    rw [← contains_iff, Bool.not_eq_true] at hkey
    rw [hkey, Bool.not_false]
  refine eq_of_entries ?_
  rw [entries_foldl_insert l hnew]
  exact congrArg (l.entries ++ ·) hall.symm

end Listing

end Conform
