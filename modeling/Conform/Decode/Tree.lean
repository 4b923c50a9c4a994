import Conform.Json.Printer
import Conform.Listing
import Conform.Name.Basic
import Conform.Schema.Handle
/-!
# Decoded trees

What a document means under a schema: a tree of elements with typed values.
-/

namespace Conform

/-- A decoded element. The values that defaults give are recorded also where they are not put into
the attributes and the text. -/
structure Decoded where
  tag : QName
  path : String
  attributes : Listing QName Json
  text : Option Json
  children : List Decoded
  isNil : Bool
  declaration : Option ElementId
  attributeDefaults : Listing QName Json
  defaultValue : Option Json
deriving Inhabited

namespace Decoded

/-- An element without content. -/
def leaf (tag : QName) (path : String) : Decoded :=
  ⟨tag, path, Listing.empty, none, [], false, none, Listing.empty, none⟩

/-- The attributes, followed by the defaults that are not among them. -/
def allAttributes (d : Decoded) : List (QName × Json) :=
  d.attributes.entries ++
    d.attributeDefaults.entries.filter fun a => !d.attributes.contains a.1

/-- The typed value: nothing for a nil element, else the text, else the default. -/
def typedValue (d : Decoded) : Option Json :=
  if d.isNil then none else d.text.or d.defaultValue

/-- The first child with a local name. -/
def childOfBase? (d : Decoded) (base : String) : Option Decoded :=
  d.children.find? fun c => c.tag.base = base

/-- The value of the first attribute with a local name. -/
def attributeOfBase? (d : Decoded) (base : String) : Option Json :=
  (d.attributes.entries.find? fun a => a.1.base = base).map Prod.snd

mutual

/-- The element and its descendants in document order. -/
def nodes : Decoded → List Decoded
  | d@⟨_, _, _, _, children, _, _, _, _⟩ => d :: nodesOfAll children

/-- The elements of trees in document order. -/
def nodesOfAll : List Decoded → List Decoded
  | [] => []
  | d :: rest => d.nodes ++ nodesOfAll rest

end

mutual

/-- The text of the tree. Empty attributes and children and a missing text are left out. -/
def print : Decoded → String
  | ⟨tag, path, attributes, text, children, isNil, _, _, _⟩ =>
    Json.printObject <|
      [("tag", Json.printText tag.text), ("path", Json.printText path)] ++
      (if attributes.isEmpty then [] else
        [("attributes",
          Json.printObject (attributes.entries.map fun a => (a.1.text, a.2.print)))]) ++
      (text.toList.map fun v => ("text", v.print)) ++
      (match children with
        | [] => []
        | c :: rest => [("children", Json.printList (c.print :: printAll rest))]) ++
      [("nil", if isNil then "true" else "false")]

/-- The texts of trees. -/
def printAll : List Decoded → List String
  | [] => []
  | d :: rest => d.print :: printAll rest

end

end Decoded

end Conform
