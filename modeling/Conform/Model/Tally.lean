import Conform.Schema.Handle
/-!
# Tallies

A tally counts members. A member that was never counted has the count zero.
-/

namespace Conform

/-- Counts of members. -/
structure Tally where
  entries : List (Member × Nat)
deriving DecidableEq, Repr, Inhabited

namespace Tally

/-- All counts are zero. -/
def zero : Tally := ⟨[]⟩

/-- The count of a member. -/
def count (t : Tally) (m : Member) : Nat := ((t.entries.find? fun e => e.1 = m).map Prod.snd).getD 0

/-- The entries with `n` for `m`. -/
def put (m : Member) (n : Nat) : List (Member × Nat) → List (Member × Nat)
  | [] => [(m, n)]
  | e :: rest => if e.1 = m then (m, n) :: rest else e :: put m n rest

/-- The tally with another count for a member. -/
def set (t : Tally) (m : Member) (n : Nat) : Tally := ⟨put m n t.entries⟩

/-- The tally with more for a member. -/
def add (t : Tally) (m : Member) (n : Nat) : Tally := t.set m (t.count m + n)

@[simp] theorem count_zero (m : Member) : zero.count m = 0 := rfl

private theorem find?_put (m m' : Member) (n : Nat) (es : List (Member × Nat)) :
    (((put m n es).find? fun e => e.1 = m').map Prod.snd).getD 0 =
      if m' = m then n else ((es.find? fun e => e.1 = m').map Prod.snd).getD 0 := by
  induction es with
  | nil => by_cases h : m = m' <;> simp [put, h, eq_comm]
  | cons e rest ih =>
    by_cases he : e.1 = m
    · by_cases h : m = m' <;> simp [put, he, h, eq_comm]
    · by_cases h : e.1 = m'
      · subst h
        simp [put, he]
      · simp only [put, he, if_false, List.find?_cons, h, decide_false]
        exact ih

/-- Setting the count of a member leaves all others. -/
@[simp] theorem count_set (t : Tally) (m m' : Member) (n : Nat) :
    (t.set m n).count m' = if m' = m then n else t.count m' :=
  find?_put m m' n t.entries

@[simp] theorem count_add (t : Tally) (m m' : Member) (n : Nat) :
    (t.add m n).count m' = if m' = m then t.count m + n else t.count m' := by
  simp [add]

end Tally

end Conform
