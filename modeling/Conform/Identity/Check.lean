import Conform.Identity.Counter
import Conform.Identity.Tuples
import Conform.Schema.Basic
/-!
# Checking the constraints of an element

The constraints that an element declares are checked once the element is complete. A tuple may come
once in a key or a unique; a tuple of a keyref must be held by the constraint to which it refers, at
the same element if that is declared there, else anywhere below.
-/

namespace Conform

/-- The tuples that keys and uniques hold. -/
structure HeldTuples where
  pairs : List (IdentityId × FieldTuple)
deriving DecidableEq, Repr, Inhabited

namespace HeldTuples

def empty : HeldTuples := ⟨[]⟩

/-- Whether a constraint holds a tuple. -/
def holds (h : HeldTuples) (id : IdentityId) (t : FieldTuple) : Bool := h.pairs.contains (id, t)

/-- The tuples of one constraint. -/
def ofTuples (id : IdentityId) (ts : List LocatedTuple) : HeldTuples :=
  ⟨ts.map fun t => (id, t.1)⟩

def append (h k : HeldTuples) : HeldTuples := ⟨h.pairs ++ k.pairs⟩

instance : Append HeldTuples := ⟨append⟩

@[simp] theorem holds_append (h k : HeldTuples) (id : IdentityId) (t : FieldTuple) :
    (h ++ k).holds id t = (h.holds id t || k.holds id t) := by
  show (append h k).holds id t = _
  simp [holds, append]

end HeldTuples

/-- What a check of constraints leads to. -/
structure ScopeCheck where
  problems : List Diagnostic
  /-- The tuples held at the element and below. -/
  held : HeldTuples
deriving DecidableEq, Repr

namespace Rule

/-- The second occurrences of tuples of a key or a unique. -/
def duplicates (r : Rule) (ts : List LocatedTuple) : List Diagnostic :=
  (TupleCounter.empty.seconds ts).map fun t =>
    IdentityFault.at (.duplicate t.1 r.declared.text) t.2

/-- The tuples of a keyref that the constraint with this text does not hold, each once. -/
def dangling (ts : List LocatedTuple) (identity : String) (holds : FieldTuple → Bool)
    (path : String) : List Diagnostic :=
  ((TupleCounter.ofList (ts.map Prod.fst)).dangling holds).map fun e =>
    IdentityFault.at (.dangling e.1 identity e.2) path

end Rule

namespace Schema

/-- The problems of one constraint by itself. -/
def ownProblems (s : Schema) (policy : AbsentKeyPolicy) (scope : Decoded) (id : IdentityId) :
    List Diagnostic :=
  let r := s.rule id
  r.problems policy scope ++
    if r.declared.isKeyref then [] else r.duplicates (r.tuples policy scope)

/-- The tuples that a key or a unique holds at a scope element. -/
def heldAt (s : Schema) (policy : AbsentKeyPolicy) (scope : Decoded) (id : IdentityId) :
    HeldTuples :=
  let r := s.rule id
  if r.declared.isKeyref then .empty else .ofTuples id (r.tuples policy scope)

/-- The references of one constraint that lead nowhere. -/
def danglingReferences (s : Schema) (policy : AbsentKeyPolicy) (ids : List IdentityId)
    (scope : Decoded) (below : HeldTuples) (id : IdentityId) : List Diagnostic :=
  let r := s.rule id
  if !r.declared.isKeyref then []
  else match r.refers with
    | none => []
    | some key =>
      let held :=
        if ids.contains key && !(s.rule key).declared.isKeyref then s.heldAt policy scope key
        else below
      Rule.dangling (r.tuples policy scope) (s.rule key).declared.text (held.holds key) scope.path

/-- Checks the constraints that a complete element declares. References are looked up only if
nothing of the document was left out. -/
def checkScope (s : Schema) (policy : AbsentKeyPolicy) (resolves : Bool) (ids : List IdentityId)
    (scope : Decoded) (below : HeldTuples) : ScopeCheck where
  problems := ids.flatMap (s.ownProblems policy scope) ++
    if resolves then ids.flatMap (s.danglingReferences policy ids scope below) else []
  held := ids.foldl (fun held id => held ++ s.heldAt policy scope id) below

end Schema

end Conform
