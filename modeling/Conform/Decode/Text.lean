import Conform.Decode.Attributes
/-!
# Text of an element

The text of simple content is decoded by its type; where there is none, the default stands for it.
The text of mixed content is kept as it is, with the pieces around the children joined.
-/

namespace Conform

/-- The text of a decoded element, and its default if it has one. -/
structure DecodedText where
  text : Option Json
  default : Option Json

/-- The pieces of character data without white space at their ends, joined by spaces; nothing if
there are none. -/
def Element.joinedText (e : Element) : Option Json :=
  match (e.pieces.map Text.trim).filter (· ≠ "") with
  | [] => none
  | pieces => some (.text (String.intercalate " " pieces))

namespace Schema

/-- The value of the text of simple content. A text that is no value of the type is kept as it
is. -/
def textValue (s : Schema) (id : ElementId) (path : String) (t : SimpleType) (e : Element)
    (default : Option Json) (written : String) : Pass Json :=
  match t.builtin.decode written with
  | .error fault => do
    Pass.report (.errorAt (.decode fault) path id)
    return .text written
  | .ok value =>
    match (s.element id).fixed with
    | none => .done value
    | some fixed => do
      Pass.reportIf (default ≠ some value)
        (.errorAt (.elementNotFixed written fixed e.tag) path id)
      return value

/-- The text of an element with simple content. -/
def simpleContent (s : Schema) (id : ElementId) (path : String) (t : SimpleType) (e : Element) :
    Pass DecodedText := do
  Pass.reportIf (!e.children.isEmpty) (.errorAt .childrenInSimple path id)
  let default := (s.element id).valueConstraint.bind fun v => (t.builtin.decode v).toOption
  let written := e.text.getD ""
  let options ← Pass.options
  if written = "" ∧ default.isSome then
    return ⟨if options.usesDefaults then default else none, default⟩
  else
    let value ← s.textValue id path t e default written
    return ⟨some value, default⟩

end Schema

end Conform
