import Conform.Failure
import Conform.Text.Blank
/-!
# Wildcards

A wildcard stands for any element or attribute whose namespace it admits.
-/

namespace Conform

/-- How content that a wildcard admits is checked. -/
inductive Processing where
  /-- Against its declaration, which must be there. -/
  | strict
  /-- Against its declaration, if there is one. -/
  | lax
  /-- Not at all. -/
  | skip
deriving DecidableEq, Repr, Inhabited

namespace Processing

def text : Processing → String
  | strict => "strict"
  | lax => "lax"
  | skip => "skip"

def ofText? (s : String) : Option Processing := [strict, lax, skip].find? fun p => s = p.text

end Processing

/-- The namespaces that a wildcard admits. The empty one stands for names without a namespace. -/
inductive SpaceConstraint where
  | any
  /-- All but the target and the empty one. -/
  | other (target : String)
  | only (spaces : List String)
  | except (spaces : List String)
deriving DecidableEq, Repr, Inhabited

namespace SpaceConstraint

/-- Puts a namespace at its place in a list without repeats. -/
def place (space : String) : List String → List String
  | [] => [space]
  | s :: rest =>
    if space = s then s :: rest
    else if space < s then space :: s :: rest
    else s :: place space rest

/-- The namespace that a word of a list stands for. -/
def readWord (target field word : String) : Except Failure String :=
  if word = "##local" then .ok ""
  else if word = "##targetNamespace" then .ok target
  else if (Text.dropStart? ['#', '#'] word.toList).isSome then
    .error (.schema (.badNamespaceToken word field) none)
  else .ok word

/-- The namespaces of a list, sorted. -/
def readList (target field : String) (cs : List Char) : Except Failure (List String) :=
  (Text.words cs).foldlM
    (fun spaces w => do return place (← readWord target field (String.ofList w)) spaces) []

/-- The constraint that lists the namespaces to admit. -/
def ofNamespaces (value target : String) : Except Failure SpaceConstraint :=
  let trimmed := Text.trim value
  if trimmed = "##any" then .ok .any
  else if trimmed = "##other" then .ok (.other target)
  else return .only (← readList target "namespace" value.toList)

/-- The constraint that lists the namespaces to refuse. -/
def ofExcluded (value target : String) : Except Failure SpaceConstraint := do
  return .except (← readList target "notNamespace" value.toList)

/-- Whether a namespace is admitted. -/
def isAllowed (c : SpaceConstraint) (space : String) : Bool :=
  match c with
  | any => true
  | other target => space ≠ "" && space ≠ target
  | only spaces => spaces.contains space
  | except spaces => !spaces.contains space

/-- Namespaces as they stand in messages. -/
def labelOf (spaces : List String) : String :=
  String.intercalate " " (spaces.map fun s => if s = "" then "##local" else s)

/-- The constraint as it stands in messages. -/
def label : SpaceConstraint → String
  | any => "##any"
  | other _ => "##other"
  | only spaces => labelOf spaces
  | except spaces => "not " ++ labelOf spaces

end SpaceConstraint

/-- A particle for any element of some namespaces. -/
structure Wildcard where
  constraint : SpaceConstraint
  process : Processing
  occurs : Occurs
  parent : Option GroupId
deriving DecidableEq, Repr, Inhabited

namespace Wildcard

def passes (w : Wildcard) (n : QName) : Bool := w.constraint.isAllowed n.space

/-- The wildcard among expected tags. Only a strict one is named. -/
def expectedTag (w : Wildcard) : Option String :=
  if w.process = .strict then some ("from '" ++ w.constraint.label ++ "' namespace/s") else none

end Wildcard

/-- Any attribute of some namespaces. -/
structure AttributeWildcard where
  constraint : SpaceConstraint
  process : Processing
deriving DecidableEq, Repr, Inhabited

def AttributeWildcard.passes (w : AttributeWildcard) (n : QName) : Bool :=
  w.constraint.isAllowed n.space

end Conform
