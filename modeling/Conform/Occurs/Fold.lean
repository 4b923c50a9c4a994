import Conform.Occurs.Basic
/-!
# Arithmetic of occurrence bounds

Bounds of particles in a row are added, those of a particle and its group multiplied, those of
alternatives joined. All arithmetic stops at the largest word.
-/

namespace Conform

/-- The word of a number, or the largest word. -/
def saturate (n : Nat) : UInt32 := UInt32.ofNat (Min.min n (UInt32.size - 1))

theorem toNat_saturate (n : Nat) : (saturate n).toNat = Min.min n (UInt32.size - 1) :=
  UInt32.toNat_ofNat_of_lt' (Nat.lt_of_le_of_lt (Nat.min_le_right _ _) (by decide))

/-- The sum, or the largest word. -/
def satAdd (a b : UInt32) : UInt32 := saturate (a.toNat + b.toNat)

/-- The product, or the largest word. -/
def satMul (a b : UInt32) : UInt32 := saturate (a.toNat * b.toNat)

namespace Occurs

/-- The bounds of two particles in a row. -/
def add (a b : Occurs) : Occurs where
  min := satAdd a.min b.min
  max := match a.max, b.max with
    | some m, some n => some (satAdd m n)
    | _, _ => none

/-- The bounds of a particle in a group that occurs itself. Nothing is as good as never, also
without an upper bound. -/
def multiply (a b : Occurs) : Occurs where
  min := satMul a.min b.min
  max := match a.max, b.max with
    | some m, some n => some (satMul m n)
    | some m, none => if m = 0 then some 0 else none
    | none, some n => if n = 0 then some 0 else none
    | none, none => none

/-- The bounds of two alternatives. -/
def join (a b : Occurs) : Occurs where
  min := Min.min a.min b.min
  max := match a.max, b.max with
    | some m, some n => some (Max.max m n)
    | _, _ => none

end Occurs

end Conform
