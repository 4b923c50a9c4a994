import Conform.Identity.Tuples
/-!
# Options of a pass

How a document is decoded: what becomes of diagnostics, how deep the pass goes, what a key does with
missing values and whether defaults are filled in.
-/

namespace Conform

/-- What becomes of the diagnostics of a pass. -/
inductive Mode where
  /-- The first error ends the pass. -/
  | strict
  /-- All diagnostics are collected. -/
  | lax
  /-- Content models and constraints are not checked and all diagnostics dropped. -/
  | skip
deriving DecidableEq, Repr, Inhabited

namespace Mode

def text : Mode → String
  | strict => "strict"
  | lax => "lax"
  | skip => "skip"

def all : List Mode := [strict, lax, skip]

def ofText (s : String) : Except Failure Mode :=
  match all.find? fun m => s = m.text with
  | some m => .ok m
  | none => .error (.misuse (.badMode s))

/-- What a mode keeps of a diagnostic, unless it ends the pass. -/
def keep (m : Mode) (d : Diagnostic) : Except Failure (List Diagnostic) :=
  match m with
  | strict => if d.isError then .error (.invalid d) else .ok [d]
  | lax => .ok [d]
  | skip => .ok []

end Mode

/-- The options of a pass. -/
structure Options where
  mode : Mode
  /-- The number of levels that are decoded. The root is decoded in any case. -/
  maxDepth : Option Nat
  absentKeys : AbsentKeyPolicy
  /-- Missing attributes and empty elements take their defaults. -/
  usesDefaults : Bool
deriving DecidableEq, Repr

namespace Options

/-- Strict, without a bound on the depth, and with defaults. -/
def standard : Options := ⟨.strict, none, .error, true⟩

instance : Inhabited Options := ⟨standard⟩

/-- The options that differ from the usual ones only in the mode. -/
def ofMode (mode : Mode) : Options := { standard with mode }

/-- Content models and constraints are not checked. -/
def isSkip (o : Options) : Bool := o.mode = .skip

/-- Elements at this level are not decoded. -/
def isTooDeep (o : Options) (level : Nat) : Bool := o.maxDepth.any fun n => n ≤ level

end Options

end Conform
