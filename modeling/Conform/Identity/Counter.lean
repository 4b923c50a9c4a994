import Conform.Identity.Value
import Conform.Listing
/-!
# Counting combinations of values

How often each combination of field values has come, in the order in which they first came.
-/

namespace Conform

/-- Combinations of values with the number of times that they have come. -/
structure TupleCounter where
  counts : Listing FieldTuple Nat
deriving DecidableEq, Repr

namespace TupleCounter

/-- Nothing has come yet. -/
def empty : TupleCounter := ⟨Listing.empty⟩

/-- How often a combination has come. -/
def count (c : TupleCounter) (t : FieldTuple) : Nat := (c.counts.get? t).getD 0

/-- The combinations in the order in which they first came. -/
def tuples (c : TupleCounter) : List FieldTuple := c.counts.keys

def contains (c : TupleCounter) (t : FieldTuple) : Bool := c.counts.contains t

/-- The counter after one more combination. -/
def increase (c : TupleCounter) (t : FieldTuple) : TupleCounter :=
  ⟨c.counts.insert t (c.count t + 1)⟩

/-- The combinations that do not hold, with their counts. -/
def dangling (c : TupleCounter) (holds : FieldTuple → Bool) : List (FieldTuple × Nat) :=
  c.counts.entries.filter fun e => !holds e.1

/-- The counter of some combinations. -/
def ofList (ts : List FieldTuple) : TupleCounter := ts.foldl increase empty

@[simp] theorem count_empty (t : FieldTuple) : empty.count t = 0 := rfl

@[simp] theorem count_increase (c : TupleCounter) (t u : FieldTuple) :
    (c.increase t).count u = if t = u then c.count t + 1 else c.count u := by
  by_cases h : t = u <;> simp [increase, count, h]

/-- The entries that are second occurrences, with what belongs to them. -/
def seconds {α : Type} (c : TupleCounter) : List (FieldTuple × α) → List (FieldTuple × α)
  | [] => []
  | e :: rest =>
    if c.count e.1 = 1 then e :: seconds (c.increase e.1) rest else seconds (c.increase e.1) rest

end TupleCounter

end Conform
