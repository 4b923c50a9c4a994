import Conform.Failure
/-!
# Resource limits

Bounds on the nesting of model groups and on the nesting of elements in a document.
-/

namespace Conform

/-- How deep models and documents may be. -/
structure Limits where
  maxModelDepth : Nat
  maxMarkupDepth : Nat
deriving DecidableEq, Repr

namespace Limits

def standard : Limits := ⟨15, 9999⟩

instance : Inhabited Limits := ⟨standard⟩

def strict : Limits := ⟨10, 1000⟩

def permissive : Limits := ⟨30, 100000⟩

/-- The limits with another bound on models, which must not be too low. -/
def withModelDepth (l : Limits) (depth : Nat) : Except Failure Limits :=
  if depth < minModelDepth then .error (.misuse (.modelDepthTooLow depth))
  else .ok { l with maxModelDepth := depth }

/-- The limits with another bound on documents, which must not be zero. -/
def withMarkupDepth (l : Limits) (depth : Nat) : Except Failure Limits :=
  if depth = 0 then .error (.misuse .noMarkupDepth) else .ok { l with maxMarkupDepth := depth }

/-- Fails beyond the bound on documents. -/
def checkMarkupDepth (l : Limits) (depth : Nat) : Except Failure Unit :=
  if l.maxMarkupDepth < depth then .error (.markupDepth depth l.maxMarkupDepth) else .ok ()

def isModelDepthExceeded (l : Limits) (depth : Nat) : Bool := l.maxModelDepth < depth

end Limits

end Conform
