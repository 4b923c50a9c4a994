import Conform.Name.Scope
import Conform.Text.Blank
/-!
# Elements of a document

An element has a name, attributes and children. Character data stands before the first child, as
the text of the element, or behind a child, as the tail of that child.
-/

namespace Conform

/-- An element of a document, with the scope in which its names were read. -/
structure Element where
  name : QName
  attributes : Listing QName String
  text : Option String
  tail : Option String
  children : List Element
  scope : Scope
deriving Inhabited

namespace Element

/-- An element without content. -/
def leaf (name : QName) : Element := ⟨name, Listing.empty, none, none, [], Scope.empty⟩

/-- The value of an attribute. -/
def attribute? (e : Element) (name : QName) : Option String := e.attributes.get? name

/-- The value of the first attribute with a local name. -/
def attributeOfBase? (e : Element) (base : String) : Option String :=
  (e.attributes.entries.find? fun a => a.1.base = base).map Prod.snd

/-- The element with one more child at the end. -/
def addChild (e child : Element) : Element := { e with children := e.children ++ [child] }

/-- Character data with more of it at the end. -/
def appendData (data : Option String) (more : String) : Option String := some (data.getD "" ++ more)

/-- The children with more character data behind the last of them. -/
def appendTail (more : String) : List Element → List Element
  | [] => []
  | [child] => [{ child with tail := appendData child.tail more }]
  | child :: rest => child :: appendTail more rest

/-- The element with more character data at the end. -/
def appendText (e : Element) (more : String) : Element :=
  if e.children.isEmpty then { e with text := appendData e.text more }
  else { e with children := appendTail more e.children }

/-- The element with an attribute set. -/
def withAttribute (e : Element) (name : QName) (value : String) : Element :=
  { e with attributes := e.attributes.insert name value }

/-- The pieces of character data, in order. -/
def pieces (e : Element) : List String := e.text.toList ++ e.children.filterMap (·.tail)

/-- Whether there is character data other than white space. -/
def hasText (e : Element) : Bool := e.pieces.any Text.isVisible

/-- The children with a local name. -/
def childrenOfBase (e : Element) (base : String) : List Element :=
  e.children.filter fun c => c.name.base = base

/-- The name of the element as it can be written in its scope. -/
def tag (e : Element) : String := e.scope.write e.name

mutual

/-- The element and its descendants in document order, with their levels. -/
def outline (level : Nat) : Element → List (Nat × Element)
  | e@⟨_, _, _, _, children, _⟩ => (level, e) :: outlineAll (level + 1) children

/-- The elements of trees in document order. -/
def outlineAll (level : Nat) : List Element → List (Nat × Element)
  | [] => []
  | e :: rest => outline level e ++ outlineAll level rest

end

end Element

end Conform
