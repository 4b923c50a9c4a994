import Conform.Decode.Pass
import Conform.Decode.Tree
import Conform.Schema.Basic
/-!
# Attributes of an element

An element says by attributes of the instance namespace which type it has and whether it is nil. All
other attributes are decoded by the declarations of its type, and missing ones take their defaults.
-/

namespace Conform

namespace Schema

/-- The simple type at a handle. -/
def simpleType (s : Schema) (id : TypeId) : Except Failure SimpleType :=
  match (s.type id).asSimple? with
  | some t => .ok t
  | none => .error (.notSimple id)

/-- The type that an element names, if there is one of that name. -/
def namedType? (s : Schema) (scope : Scope) (written : String) : Option TypeId :=
  match scope.resolve written with
  | .ok name => s.typeNamed? name
  | .error _ => none

/-- The type of an element: the one that it names, else the one that its declaration selects. -/
def typeOf (s : Schema) (id : ElementId) (path : String) (e : Element) : Pass TypeId :=
  let selected := (s.element id).selectType e
  match e.attribute? ⟨QName.instanceSpace, "type"⟩ with
  | none => .done selected
  | some value =>
    match s.namedType? e.scope (Text.trim value) with
    | some t => .done t
    | none => (Pass.report (.errorAt (.unknownType (Text.trim value)) path id)).andThen fun _ =>
      .done selected

/-- Whether an element is nil. A nil element has no content. -/
def nilOf (s : Schema) (id : ElementId) (path : String) (e : Element) : Pass Bool :=
  match (e.attribute? ⟨QName.instanceSpace, "nil"⟩).map Text.trim with
  | none => .done false
  | some value =>
    if value = "true" ∨ value = "1" then
      if (s.element id).nillable then do
        Pass.reportIf (e.hasText || !e.children.isEmpty) (.errorAt .nilNotEmpty path id)
        return true
      else do
        Pass.report (.errorAt (.notNillable e.tag) path id)
        return false
    else do
      Pass.reportIf (value ≠ "false" ∧ value ≠ "0") (.errorAt (.badNil value) path id)
      return false

/-- The value of an attribute. A text that is no value of the type is kept as it is. -/
def attributeValue (s : Schema) (id : ElementId) (path : String) (a : AttributeDeclaration)
    (written : String) : Pass Json := do
  let t ← Pass.ofExcept (s.simpleType a.type)
  match t.builtin.decode written with
  | .error fault =>
    Pass.report (.errorAt (.decode fault) path id)
    return .text written
  | .ok value =>
    match a.fixed with
    | none => return value
    | some fixed =>
      Pass.reportIf ((t.builtin.decode fixed).toOption ≠ some value)
        (.errorAt (.attributeNotFixed written fixed a.name.text) path id)
      return value

/-- The value of an attribute under a type, unless its use is prohibited. -/
def decodeAttribute (s : Schema) (id : ElementId) (path : String) (type : Option ComplexType)
    (e : Element) (name : QName) (written : String) : Pass (Option Json) :=
  match type.bind fun t => t.attributes.get? name with
  | some a =>
    if a.use = .prohibited then do
      Pass.report (.errorAt (.prohibitedAttribute (e.scope.write name)) path id)
      return none
    else do return some (← s.attributeValue id path a written)
  | none => do
    Pass.reportIf (!type.any fun t => t.admitsAttribute name)
      (.errorAt (.undeclaredAttribute (e.scope.write name) e.tag) path id)
    return some (.text written)

/-- The values of written attributes, after those that are decoded already. -/
def decodeAttributes (s : Schema) (id : ElementId) (path : String) (type : Option ComplexType)
    (e : Element) :
    List (QName × String) → Listing QName Json → Pass (Listing QName Json)
  | [], decoded => .done decoded
  | (name, written) :: rest, decoded =>
    if name.space = QName.instanceSpace then s.decodeAttributes id path type e rest decoded
    else do
      match ← s.decodeAttribute id path type e name written with
      | none => s.decodeAttributes id path type e rest decoded
      | some value => s.decodeAttributes id path type e rest (decoded.insert name value)

/-- The default of a declared attribute that an element does not have. -/
def missingAttribute (s : Schema) (id : ElementId) (path : String) (e : Element)
    (a : AttributeDeclaration) : Pass (Option Json) :=
  if e.attributes.contains a.name || a.use = .prohibited then .done none
  else if a.isRequired then do
    Pass.report (.errorAt (.missingAttribute (e.scope.write a.name)) path id)
    return none
  else match a.valueConstraint with
    | none => .done none
    | some value => do
      let t ← Pass.ofExcept (s.simpleType a.type)
      return (t.builtin.decode value).toOption

/-- The defaults of declared attributes that an element does not have. -/
def missingAttributes (s : Schema) (id : ElementId) (path : String) (e : Element) :
    List AttributeDeclaration → Pass (List (QName × Json))
  | [] => .done []
  | a :: rest => do
    let value ← s.missingAttribute id path e a
    let values ← s.missingAttributes id path e rest
    return (value.toList.map fun v => (a.name, v)) ++ values

end Schema

/-- The attributes of a decoded element, and the defaults among them or left out. -/
structure DecodedAttributes where
  attributes : Listing QName Json
  defaults : Listing QName Json

/-- The attributes of an element under a type. -/
def Schema.attributesOf (s : Schema) (id : ElementId) (path : String) (type : TypeDefinition)
    (e : Element) : Pass DecodedAttributes := do
  let complex := type.asComplex?
  let written ← s.decodeAttributes id path complex e e.attributes.entries Listing.empty
  let defaults ← s.missingAttributes id path e ((complex.map (·.attributes.values)).getD [])
  let options ← Pass.options
  return {
    attributes := if options.usesDefaults then
      defaults.foldl (fun l d => l.insert d.1 d.2) written else written
    defaults := Listing.ofList defaults }

end Conform
