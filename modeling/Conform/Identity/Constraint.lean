import Conform.Path.Basic
/-!
# Identity constraints

A constraint selects elements under the element that declares it and compares them by their fields:
a key and a unique hold each combination of values at most once, a keyref refers to the values of
another constraint.
-/

namespace Conform

/-- What a constraint demands. -/
inductive ConstraintKind where
  | unique
  | key
  /-- The values are among those of the constraint with this name. -/
  | keyref (refers : QName)
deriving DecidableEq, Repr, Inhabited

def ConstraintKind.text : ConstraintKind → String
  | unique => "unique"
  | key => "key"
  | keyref _ => "keyref"

/-- A constraint as it is declared, with the scope for the prefixes of its paths. -/
structure Constraint where
  name : QName
  kind : ConstraintKind
  selector : String
  fields : List String
  scope : Scope
deriving DecidableEq, Repr, Inhabited

namespace Constraint

def isKey (c : Constraint) : Bool := c.kind = .key

def isKeyref (c : Constraint) : Bool :=
  match c.kind with
  | .keyref _ => true
  | _ => false

/-- The kind and the name, as they stand in messages. -/
def text (c : Constraint) : String := c.kind.text ++ " '" ++ c.name.text ++ "'"

end Constraint

/-- A constraint with its paths compiled and its reference resolved. -/
structure Rule where
  declared : Constraint
  selector : Path
  fields : List Path
  refers : Option IdentityId
deriving DecidableEq, Repr, Inhabited

/-- The constraint with its paths compiled. -/
def Constraint.compile (c : Constraint) (refers : Option IdentityId) : Except Failure Rule :=
  let compiled : Except Failure Rule := do
    let selector ← Path.compileSelector c.selector c.scope
    let fields ← c.fields.mapM fun f => Path.compileField f c.scope
    return ⟨c, selector, fields, refers⟩
  match compiled with
  | .ok rule => .ok rule
  | .error failure => .error (failure.against c.text)

end Conform
