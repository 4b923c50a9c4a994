import Conform.Decode.Tree
import Conform.Path.Basic
/-!
# Evaluation of paths

A path is evaluated on a decoded tree from a context element. Nodes are told apart by their place
under the context, so that equal subtrees at different places stay different nodes.
-/

namespace Conform

/-- An element with its place under a context: the positions of the children that lead to it. -/
structure Located where
  place : List Nat
  element : Decoded
deriving Inhabited

/-- A node that a path can select. -/
inductive Node where
  | element (l : Located)
  /-- An attribute of an element, also one that only a default gives. -/
  | onAttribute (l : Located) (name : QName) (value : Json)
deriving Inhabited

namespace Node

/-- The element of the node, or the one that carries it. -/
def owner : Node → Located
  | element l => l
  | onAttribute l _ _ => l

/-- The name of the attribute. -/
def attributeName? : Node → Option QName
  | element _ => none
  | onAttribute _ name _ => some name

/-- The typed value of the node. -/
def typedValue : Node → Option Json
  | element l => l.element.typedValue
  | onAttribute _ _ value => some value

/-- The path of the element of the node. -/
def path (n : Node) : String := n.owner.element.path

/-- What tells a node from the others under the same context. -/
def key (n : Node) : List Nat × Option QName := (n.owner.place, n.attributeName?)

end Node

namespace Located

/-- The children with their places, the first at position `i`. -/
def childrenFrom (place : List Nat) : Nat → List Decoded → List Located
  | _, [] => []
  | i, d :: rest => ⟨place ++ [i], d⟩ :: childrenFrom place (i + 1) rest

def children (l : Located) : List Located := childrenFrom l.place 0 l.element.children

mutual

/-- The element at a place and its descendants in document order. -/
def below (place : List Nat) : Decoded → List Located
  | d@⟨_, _, _, _, children, _, _, _, _⟩ => ⟨place, d⟩ :: belowAll place 0 children

/-- The elements of the trees at the positions from `i` on. -/
def belowAll (place : List Nat) : Nat → List Decoded → List Located
  | _, [] => []
  | i, d :: rest => below (place ++ [i]) d ++ belowAll place (i + 1) rest

end

/-- The attributes of an element whose names pass a test. -/
def attributesPassing (l : Located) (t : Path.NameTest) : List Node :=
  (l.element.allAttributes.filter fun a => t.passes a.1).map fun a => .onAttribute l a.1 a.2

end Located

namespace Path

/-- The nodes that steps reach from elements. A step to attributes is the last one. -/
def follow : List (Step NameTest) → List Located → List Node
  | [], here => here.map .element
  | .self :: rest, here => follow rest here
  | .descendants :: rest, here =>
    follow rest (here.flatMap fun l => Located.below l.place l.element)
  | .child t :: rest, here =>
    follow rest (here.flatMap fun l => l.children.filter fun c => t.passes c.element.tag)
  | .onAttributes t :: _, here => here.flatMap fun l => l.attributesPassing t

/-- The nodes with those of `more` that are not among them. -/
def union (nodes more : List Node) : List Node :=
  more.foldl (fun found n => if found.any (·.key = n.key) then found else found ++ [n]) nodes

/-- The nodes that the path selects from a context, branch by branch, each once. -/
def select (p : Path) (context : Decoded) : List Node :=
  p.branches.foldl (fun found steps => union found (follow steps [⟨[], context⟩])) []

end Path

end Conform
