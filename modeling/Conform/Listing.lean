/-!
# Listings

A listing holds values under distinct keys, in the order in which the keys first came. A value put
under a key that is already there takes the place of the earlier one.
-/

namespace Conform

/-- Values under distinct keys, in order. -/
structure Listing (κ ν : Type) where
  entries : List (κ × ν)
  nodup : (entries.map Prod.fst).Nodup
deriving DecidableEq, Repr

namespace Listing

variable {κ ν μ : Type} [DecidableEq κ]

/-- No entry. -/
def empty : Listing κ ν := ⟨[], List.nodup_nil⟩

instance : EmptyCollection (Listing κ ν) := ⟨empty⟩

instance : Inhabited (Listing κ ν) := ⟨empty⟩

/-- The keys, in order. -/
def keys (l : Listing κ ν) : List κ := l.entries.map Prod.fst

/-- The values, in the order of their keys. -/
def values (l : Listing κ ν) : List ν := l.entries.map Prod.snd

def isEmpty (l : Listing κ ν) : Bool := l.entries.isEmpty

/-- The value under a key. -/
def get? (l : Listing κ ν) (k : κ) : Option ν := (l.entries.find? fun e => e.1 = k).map Prod.snd

def contains (l : Listing κ ν) (k : κ) : Bool := l.entries.any fun e => e.1 = k

/-- The entries with `v` under `k`: at the place of `k` if there is one, else at the end. -/
def put (k : κ) (v : ν) : List (κ × ν) → List (κ × ν)
  | [] => [(k, v)]
  | e :: rest => if e.1 = k then (k, v) :: rest else e :: put k v rest

theorem map_fst_put (k : κ) (v : ν) (es : List (κ × ν)) :
    (put k v es).map Prod.fst =
      if k ∈ es.map Prod.fst then es.map Prod.fst else es.map Prod.fst ++ [k] := by
  induction es with
  | nil => simp [put]
  | cons e rest ih =>
    by_cases he : e.1 = k
    · simp [put, he]
    · have hk : ¬ k = e.1 := fun h => he h.symm
      simp only [put, he, if_false, List.map_cons, ih, List.mem_cons, hk, false_or]
      split <;> simp

private theorem nodup_put {k : κ} {v : ν} {es : List (κ × ν)} (h : (es.map Prod.fst).Nodup) :
    ((put k v es).map Prod.fst).Nodup := by
  rw [map_fst_put]
  split
  · exact h
  · rename_i hk
    exact List.nodup_append.2 ⟨h, by simp, by
      intro a ha b hb hab
      simp only [List.mem_singleton] at hb
      exact hk (hb ▸ hab ▸ ha)⟩

/-- The listing with `v` under `k`. -/
def insert (l : Listing κ ν) (k : κ) (v : ν) : Listing κ ν := ⟨put k v l.entries, nodup_put l.nodup⟩

/-- The listing of the pairs, put in one after the other. -/
def ofList (pairs : List (κ × ν)) : Listing κ ν :=
  pairs.foldl (fun l e => l.insert e.1 e.2) empty

/-- The same keys with other values. -/
def mapValues (l : Listing κ ν) (f : ν → μ) : Listing κ μ :=
  ⟨l.entries.map fun e => (e.1, f e.2), by
    simpa [List.map_map, Function.comp_def] using l.nodup⟩

theorem find?_put (k k' : κ) (v : ν) (es : List (κ × ν)) :
    ((put k v es).find? fun e => e.1 = k').map Prod.snd =
      if k = k' then some v else (es.find? fun e => e.1 = k').map Prod.snd := by
  induction es with
  | nil => by_cases h : k = k' <;> simp [put, h]
  | cons e rest ih =>
    by_cases he : e.1 = k
    · by_cases h : k = k' <;> simp [put, he, h]
    · by_cases h : k = k'
      · subst h
        simp [put, he] at ih ⊢
        exact ih
      · by_cases hk : e.1 = k'
        · have : ¬ k' = k := fun hh => he (hk.trans hh)
          simp [put, hk, h, this]
        · simp [put, he, hk, h] at ih ⊢
          exact ih

/-- Putting a value in changes what stands under its key only. -/
@[simp] theorem get?_insert (l : Listing κ ν) (k k' : κ) (v : ν) :
    (l.insert k v).get? k' = if k = k' then some v else l.get? k' :=
  find?_put k k' v l.entries

@[simp] theorem get?_empty (k : κ) : (empty : Listing κ ν).get? k = none := rfl

/-- A new key comes last, an old one stays where it is. -/
theorem keys_insert (l : Listing κ ν) (k : κ) (v : ν) :
    (l.insert k v).keys = if k ∈ l.keys then l.keys else l.keys ++ [k] :=
  map_fst_put k v l.entries

theorem contains_iff {l : Listing κ ν} {k : κ} : l.contains k = true ↔ k ∈ l.keys := by
  simp [contains, keys]

end Listing

end Conform
