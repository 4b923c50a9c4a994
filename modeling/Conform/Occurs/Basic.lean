/-!
# Occurrence bounds

How often a particle may occur: at least `min` times and at most `max` times, without an upper
bound if there is no `max`. Bounds are words of 32 bits, counts are natural numbers.
-/

namespace Conform

/-- Bounds on the number of occurrences. -/
structure Occurs where
  min : UInt32
  max : Option UInt32
deriving DecidableEq, Repr

namespace Occurs

/-- Exactly once. -/
def once : Occurs := ⟨1, some 1⟩

instance : Inhabited Occurs := ⟨once⟩

/-- At most once. -/
def optional : Occurs := ⟨0, some 1⟩

/-- Any number of times. -/
def zeroOrMore : Occurs := ⟨0, none⟩

/-- At least once. -/
def oneOrMore : Occurs := ⟨1, none⟩

/-- Never. -/
def never : Occurs := ⟨0, some 0⟩

/-- The bounds admit a number of occurrences. -/
def Admits (o : Occurs) (n : Nat) : Prop := o.min.toNat ≤ n ∧ ∀ m ∈ o.max, n ≤ m.toNat

instance (o : Occurs) (n : Nat) : Decidable (o.Admits n) :=
  @instDecidableAnd _ _ (Nat.decLe ..) (Option.decidableForallMem o.max)

/-- Some number of occurrences is admitted. -/
def isOrdered (o : Occurs) : Bool := o.max.all fun m => o.min ≤ m

/-- The particle need not occur. -/
def isEmptiable (o : Occurs) : Bool := o.min = 0

/-- The particle must not occur. -/
def isEmpty (o : Occurs) : Bool := o.max = some 0

/-- The maximum is one. -/
def isSingle (o : Occurs) : Bool := o.max = some 1

/-- The maximum is more than one. -/
def isMultiple (o : Occurs) : Bool := !o.isEmpty && !o.isSingle

/-- More than one number of occurrences is admitted. -/
def isAmbiguous (o : Occurs) : Bool := o.max != some o.min

/-- The count is under the minimum. -/
def isMissing (o : Occurs) (count : Nat) : Bool := count < o.min.toNat

/-- The count has reached the maximum. -/
def isOver (o : Occurs) (count : Nat) : Bool := o.max.any fun m => m.toNat ≤ count

/-- The count is beyond the maximum. -/
def isExceeded (o : Occurs) (count : Nat) : Bool := o.max.any fun m => m.toNat < count

/-- The bounds are no wider than those of `base`. -/
def isRestriction (o base : Occurs) : Bool :=
  base.min ≤ o.min && base.max.all fun b => o.max.any fun m => m ≤ b

/-- The bounds as a pair in brackets. -/
def text (o : Occurs) : String :=
  let upper := match o.max with
    | some m => toString m.toNat
    | none => "None"
  "[" ++ toString o.min.toNat ++ ", " ++ upper ++ "]"

theorem admits_iff {o : Occurs} {n : Nat} :
    o.Admits n ↔ o.isMissing n = false ∧ o.isExceeded n = false := by
  cases o with | mk min max => cases max <;> simp [Admits, isMissing, isExceeded]

end Occurs

end Conform
