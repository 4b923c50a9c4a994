import Conform.Listing
import Conform.Name.Basic
/-!
# Namespace scopes

A scope binds prefixes to namespaces and holds the default namespace. An inner scope starts as a
copy of the outer one.
-/

namespace Conform

/-- Prefixes with their namespaces, and the default namespace, empty if there is none. -/
structure Scope where
  bindings : Listing String String
  defaultSpace : String
deriving DecidableEq, Repr

namespace Scope

/-- Nothing is bound. -/
def empty : Scope := ⟨Listing.empty, ""⟩

instance : Inhabited Scope := ⟨empty⟩

/-- The scope with a prefix bound. -/
def bind (s : Scope) (label space : String) : Scope :=
  { s with bindings := s.bindings.insert label space }

/-- The scope with another default namespace; the empty one takes the default away. -/
def withDefault (s : Scope) (space : String) : Scope := { s with defaultSpace := space }

/-- The namespace that a prefix is bound to. -/
def space? (s : Scope) (label : String) : Option String := s.bindings.get? label

/-- The lesser of two prefixes, if the first is there. -/
def lesser (best : Option String) (label : String) : Option String :=
  match best with
  | none => some label
  | some b => if label < b then some label else some b

/-- A prefix for a namespace: the empty one if it is the default, else the least that is bound to
it. -/
def label? (s : Scope) (space : String) : Option String :=
  if space ≠ "" ∧ s.defaultSpace = space then some ""
  else ((s.bindings.entries.filter fun e => e.2 = space).map Prod.fst).foldl lesser none

/-- The name of an element as written in this scope. -/
def resolve (s : Scope) (written : String) : Except NameFault QName :=
  match Text.cut ':' written.toList with
  | some (label, base) =>
    match s.space? (String.ofList label) with
    | some space => .ok ⟨space, String.ofList base⟩
    | none => .error (.unknownPrefix (String.ofList label))
  | none => .ok ⟨s.defaultSpace, written⟩

/-- The name of an attribute as written in this scope: the default namespace is not for it. -/
def resolveAttribute (s : Scope) (written : String) : Except NameFault QName :=
  if written.toList.contains ':' then s.resolve written else .ok (QName.plain written)

/-- A name as it can be written in this scope, in the extended form if its namespace has no
prefix. -/
def write (s : Scope) (n : QName) : String :=
  if n.space = "" then n.base
  else match s.label? n.space with
    | some label => if label = "" then n.base else label ++ ":" ++ n.base
    | none => n.text

end Scope

end Conform
