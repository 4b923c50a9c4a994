import Conform.Diagnostic
import Conform.Identity.Constraint
import Conform.Path.Select
/-!
# The tuples of a constraint

A constraint selects elements under a scope element and takes a tuple of field values from each. An
element that selects no value at all has no tuple, unless it is nil; what a key does with an element
that lacks a value is a matter of policy.
-/

namespace Conform

/-- What a key does with an element that lacks a value. -/
inductive AbsentKeyPolicy where
  /-- The element is an error and has no tuple. -/
  | error
  /-- The element has a tuple, as in a unique. -/
  | exclude
  /-- The element has no tuple, and there is a warning. -/
  | warn
deriving DecidableEq, Repr, Inhabited

namespace AbsentKeyPolicy

def text : AbsentKeyPolicy → String
  | error => "error"
  | exclude => "exclude"
  | warn => "warn"

def ofText? (s : String) : Option AbsentKeyPolicy :=
  [error, exclude, warn].find? fun p => s = p.text

/-- The severity of a missing value; nothing if it may be missing. -/
def severity? : AbsentKeyPolicy → Option Severity
  | error => some .error
  | exclude => none
  | warn => some .warning

end AbsentKeyPolicy

/-- The tuple of an element, with the path of the element. -/
abbrev LocatedTuple := FieldTuple × String

/-- What a constraint finds in a selected element. -/
inductive Finding where
  | tuple (t : LocatedTuple)
  | problem (d : Diagnostic)
  /-- The element selects no value at all. -/
  | nothing
deriving DecidableEq, Repr

namespace Finding

def tuple? : Finding → Option LocatedTuple
  | tuple t => some t
  | _ => none

def problem? : Finding → Option Diagnostic
  | problem d => some d
  | _ => none

end Finding

/-- The value of a field in an element. -/
def Path.fieldValue (field : Path) (e : Decoded) : Except IdentityFault FieldValue :=
  match field.select e with
  | [] => .ok .absent
  | [n] => .ok ((n.typedValue.map FieldValue.ofJson).getD .absent)
  | _ => .error (.manyValues field.source)

/-- An identity fault at a place. -/
def IdentityFault.at (f : IdentityFault) (path : String) : Diagnostic := .error (.identity f) path

namespace Rule

/-- The element of a node that a selector reaches. -/
def selectedElement (scope : Decoded) : Node → Except Diagnostic Decoded
  | .element l => .ok l.element
  | .onAttribute .. => .error (IdentityFault.selectsAttribute.at scope.path)

/-- The elements that the constraint selects under a scope element. -/
def selected (r : Rule) (scope : Decoded) : Except Diagnostic (List Decoded) :=
  (r.selector.select scope).mapM (selectedElement scope)

/-- The first value that a key misses in a tuple, and how severe that is. -/
def missing? (r : Rule) (policy : AbsentKeyPolicy) (t : FieldTuple) : Option (String × Severity) :=
  if r.declared.isKey then do
    let i ← FieldTuple.firstAbsent? t
    let severity ← policy.severity?
    return ((r.fields[i]?.getD .nothing).source, severity)
  else none

/-- What the constraint finds in a selected element. -/
def examine (r : Rule) (policy : AbsentKeyPolicy) (e : Decoded) : Finding :=
  match r.fields.mapM fun field => field.fieldValue e with
  | .error fault => .problem (fault.at e.path)
  | .ok t =>
    match r.missing? policy t with
    | some (field, severity) =>
      .problem { IdentityFault.at (.missingKeyField field r.declared.text) e.path with severity }
    | none => if FieldTuple.isAllAbsent t && !e.isNil then .nothing else .tuple (t, e.path)

/-- What the constraint finds under a scope element, in the order of the selected elements. -/
def findings (r : Rule) (policy : AbsentKeyPolicy) (scope : Decoded) : List Finding :=
  match r.selected scope with
  | .error d => [.problem d]
  | .ok elements => elements.map (r.examine policy)

/-- The tuples under a scope element. -/
def tuples (r : Rule) (policy : AbsentKeyPolicy) (scope : Decoded) : List LocatedTuple :=
  (r.findings policy scope).filterMap Finding.tuple?

/-- The diagnostics of elements without a tuple. -/
def problems (r : Rule) (policy : AbsentKeyPolicy) (scope : Decoded) : List Diagnostic :=
  (r.findings policy scope).filterMap Finding.problem?

end Rule

end Conform
