import Conform.Decode.Raw
import Conform.Identity.Check
import Conform.Markup.Document
/-!
# Decoding documents

A document is decoded from its root down. The children of an element are attributed to the leaves of
its content model and decoded by them; once they are complete, the issues of the model are reported
and the identity constraints of the element are checked.
-/

namespace Conform

/-- A decoded element, with what its ancestors need to know of it. -/
structure Subtree where
  element : Decoded
  held : HeldTuples
  /-- Something in it is beyond the bound on the depth. -/
  isTruncated : Bool

/-- Decoded children. -/
structure Children where
  elements : List Decoded
  held : HeldTuples
  isTruncated : Bool

namespace Children

def nothing : Children := ⟨[], .empty, false⟩

/-- One child is left out, as it is beyond the bound on the depth. -/
def truncated : Children := { nothing with isTruncated := true }

def ofSubtree (t : Subtree) : Children := ⟨[t.element], t.held, t.isTruncated⟩

def append (a b : Children) : Children :=
  ⟨a.elements ++ b.elements, a.held ++ b.held, a.isTruncated || b.isTruncated⟩

instance : Append Children := ⟨append⟩

end Children

/-- What an element contains. -/
inductive Form where
  /-- Nothing is looked at: the element is nil. -/
  | absent
  | empty
  | text (type : SimpleType)
  /-- Children of a group that no children satisfy. -/
  | unfulfillable
  | children (group : GroupId) (isMixed : Bool)

/-- An element before its content is decoded. -/
structure Opened where
  decoded : Decoded
  form : Form

/-- The content of an element before its children are decoded. -/
structure OpenContent where
  text : Option Json
  attribution : Attribution

namespace Schema

/-- What an element contains under a type. -/
def formOf (s : Schema) : TypeDefinition → Except Failure Form
  | .simple t => .ok (.text t)
  | .complex t =>
    match t.content with
    | .empty => .ok .empty
    | .simple id => (s.simpleType id).map .text
    | .elementOnly group =>
      .ok (if s.isUnfulfillable group then .unfulfillable else .children group false)
    | .mixed group =>
      .ok (if s.isUnfulfillable group then .unfulfillable else .children group true)

/-- Decodes what a tag says of an element at a level: its type, its attributes and whether it is
nil. -/
def openElement (s : Schema) (id : ElementId) (level : Nat) (path : String) (e : Element) :
    Pass Opened := do
  Pass.ofExcept (s.limits.checkMarkupDepth (level + 1))
  let type := s.type (← s.typeOf id path e)
  let isNil ← s.nilOf id path e
  let values ← s.attributesOf id path type e
  let form ← if isNil then Pass.done .absent else Pass.ofExcept (s.formOf type)
  return {
    decoded := { Decoded.leaf e.name path with
      attributes := values.attributes
      attributeDefaults := values.defaults
      isNil
      declaration := some id }
    form }

/-- The leaves of children with these names. In skip mode only their names count. -/
def attributionIn (s : Schema) (o : Options) (group : GroupId) (names : List QName) :
    Except Failure Attribution :=
  if o.isSkip then s.looseAttribution group names else s.attribution group names

/-- Looks at the text of an element with children and attributes the children to the leaves of the
content model. -/
def openContent (s : Schema) (id : ElementId) (path : String) (group : GroupId) (isMixed : Bool)
    (e : Element) : Pass OpenContent := do
  Pass.reportIf (!isMixed && e.hasText && !s.isLoneWildcard group)
    (.errorAt .textBetweenChildren path id)
  let options ← Pass.options
  let attribution ← Pass.ofExcept (s.attributionIn options group (e.children.map (·.name)))
  return ⟨if isMixed then e.joinedText else none, attribution⟩

/-- Reports the issues of the content model once the children are decoded. -/
def closeContent (s : Schema) (id : ElementId) (path : String) (e : Element) (decoded : Decoded)
    (content : OpenContent) (below : Children) : Pass Subtree := do
  let issues ← Pass.ofExcept content.attribution.issues
  Pass.reportAll (issues.map fun i => .errorAt (.children (s.childrenFault e i)) path id)
  return ⟨{ decoded with text := content.text, children := below.elements }, below.held,
    below.isTruncated⟩

/-- Decodes content without children. -/
def decodeLeaf (s : Schema) (id : ElementId) (path : String) (e : Element) (decoded : Decoded) :
    Form → Pass Subtree
  | .empty => do
    Pass.reportIf (e.hasText || !e.children.isEmpty) (.errorAt (.notEmpty e.tag) path id)
    return ⟨decoded, .empty, false⟩
  | .text t => do
    let text ← s.simpleContent id path t e
    return ⟨{ decoded with text := text.text, defaultValue := text.default }, .empty, false⟩
  | .unfulfillable => do
    Pass.report (.errorAt .emptyChoice path id)
    return ⟨decoded, .empty, false⟩
  | .absent | .children .. => .done ⟨decoded, .empty, false⟩

/-- Checks the identity constraints of an element whose content is complete. -/
def closeElement (s : Schema) (id : ElementId) (t : Subtree) : Pass Subtree := do
  let options ← Pass.options
  if options.isSkip || t.isTruncated then return t
  else
    let check := s.checkScope options.absentKeys options.maxDepth.isNone (s.element id).identities
      t.element t.held
    Pass.reportAll (check.problems.map fun d => { d with element := some id })
    return { t with held := check.held }

/-- Keeps an element at a level for which there is no declaration. -/
def keepElement (s : Schema) (isMissed : Bool) (level : Nat) (path : String) (e : Element) :
    Pass Subtree := do
  Pass.reportIf isMissed (.error (.undeclaredElement e.tag) path)
  let options ← Pass.options
  let element ← Pass.ofExcept (decodeRaw s.limits options level path e)
  return ⟨element, .empty, false⟩

mutual

/-- Decodes an element at a level by its declaration. -/
def decodeElement (s : Schema) (id : ElementId) (level : Nat) (path : String) :
    Element → Pass Subtree
  | e@⟨_, _, _, _, children, _⟩ => do
    let opened ← s.openElement id level path e
    let content : Pass Subtree := match opened.form with
      | .children group isMixed => do
        let content ← s.openContent id path group isMixed e
        let below ← s.decodeChildren (level + 1) content.attribution.leaves (e.childPaths path)
          children
        s.closeContent id path e opened.decoded content below
      | form => s.decodeLeaf id path e opened.decoded form
    let subtree ← content
    s.closeElement id subtree

/-- Decodes the children at a level by the leaves to which they are attributed. A child without a
leaf is left out, and so are the children after the last leaf. -/
def decodeChildren (s : Schema) (level : Nat) :
    List (Option Member) → List String → List Element → Pass Children
  | leaf :: leaves, path :: paths, e :: rest =>
    match leaf.bind fun m => s.treatment m e.name with
    | none => s.decodeChildren level leaves paths rest
    | some treatment => do
      let options ← Pass.options
      let child : Pass Children :=
        if options.isTooDeep level then .done .truncated
        else match treatment with
          | .declared id => Children.ofSubtree <$> s.decodeElement id level path e
          | .raw isMissed => Children.ofSubtree <$> s.keepElement isMissed level path e
      let here ← child
      let after ← s.decodeChildren level leaves paths rest
      return here ++ after
  | [], _, _ :: _ => .done .nothing
  | _ :: _, [], _ :: _ => .done .nothing
  | _, _, [] => .done .nothing

end

/-- Decodes a document, if its root has a declaration. -/
def decodeDocument (s : Schema) (d : Document) : Pass (Option Decoded) :=
  match d.root with
  | none => do
    Pass.report (.error .noRoot "")
    return none
  | some root =>
    let path := "/" ++ root.tag
    match s.elementNamed? root.name with
    | none => do
      Pass.report (.error (.undeclaredRoot root.tag) path)
      return none
    | some id => do
      let t ← s.decodeElement id 0 path root
      return some t.element

end Schema

end Conform
