import Conform.Failure
import Conform.Markup.Element
import Conform.Markup.Entity
import Conform.Markup.Scanner
import Conform.Text.Utf8
/-!
# Documents

A document is built from its events: the open elements are kept until their end, every element is
added to the one around it, and character data goes to the innermost open element. Names are
resolved as soon as all attributes of a tag are known, since a declaration holds for the tag that
carries it.
-/

namespace Conform

/-- A document, without a root if it is empty. -/
structure Document where
  root : Option Element
deriving Inhabited

namespace Markup

/-- The first attribute in the octets of a tag, with what follows it: `none` if there is no more,
an error if the octets are no attribute. -/
def nextAttribute? (bytes : List UInt8) :
    Option (Except MarkupFault ((List UInt8 × List UInt8) × List UInt8)) :=
  match bytes.dropWhile isSpace with
  | [] => none
  | first :: rest =>
    let isKey (b : UInt8) : Bool := b != 61 && !isSpace b
    let key := first :: rest.takeWhile isKey
    match (rest.dropWhile isKey).dropWhile isSpace with
    | 61 :: rest =>
      match rest.dropWhile isSpace with
      | quote :: rest =>
        if (quote = 34 || quote = 39) && rest.contains quote then
          some (.ok ((key, (upTo quote rest).1), (upTo quote rest).2))
        else some (.error .badAttribute)
      | [] => some (.error .badAttribute)
    | _ => some (.error .badAttribute)

/-- The name and the value that the octets of an attribute stand for. -/
def readAttribute (key value : List UInt8) : Except MarkupFault (String × String) :=
  match Text.ofOctets? key with
  | none => .error .badAttributeName
  | some name =>
    match (Text.ofOctets? value).bind fun s => unescape s.toList with
    | none => .error .badAttributeValue
    | some cs => .ok (name, String.ofList cs)

/-- The attributes in the octets of a tag, in order. No key may come twice. -/
def readAttributes : Nat → List (List UInt8) → List UInt8 →
    Except MarkupFault (List (String × String))
  | 0, _, _ => .ok []
  | fuel + 1, keys, bytes =>
    match nextAttribute? bytes with
    | none => .ok []
    | some (.error fault) => .error fault
    | some (.ok ((key, value), rest)) =>
      if key ∈ keys then .error .badAttribute
      else do
        let pair ← readAttribute key value
        return pair :: (← readAttributes fuel (key :: keys) rest)

/-- The attributes of a tag. Every attribute takes an octet. -/
def Tag.attributes (tag : Tag) : Except MarkupFault (List (String × String)) :=
  readAttributes (tag.rest.length + 1) [] tag.rest

/-- The prefix that an attribute with this name binds. -/
def boundPrefix? (name : String) : Option String :=
  (Text.dropStart? "xmlns:".toList name.toList).map String.ofList

/-- Whether an attribute with this name is a declaration. -/
def isDeclaration (name : String) : Bool := name = "xmlns" || (boundPrefix? name).isSome

/-- The scope after an attribute with its value. -/
def declare (scope : Scope) (pair : String × String) : Scope :=
  if pair.1 = "xmlns" then scope.withDefault pair.2
  else match boundPrefix? pair.1 with
    | some label => scope.bind label pair.2
    | none => scope

/-- The attributes with their names resolved, declarations left out. -/
def resolveAttributes (scope : Scope) (attributes : List (String × String)) :
    Except NameFault (Listing QName String) :=
  (attributes.filter fun a => !isDeclaration a.1).foldlM
    (fun listing a => do return listing.insert (← scope.resolveAttribute a.1) a.2) Listing.empty

/-- The element that a tag opens inside a scope. -/
def Tag.element (tag : Tag) (outer : Scope) : Except Failure Element :=
  match tag.attributes with
  | .error fault => .error (.markup fault)
  | .ok attributes =>
    let scope := attributes.foldl declare outer
    match Text.ofOctets? tag.name with
    | none => .error (.markup .badElementName)
    | some written =>
      match scope.resolve written with
      | .error fault => .error (.naming fault)
      | .ok name =>
        match resolveAttributes scope attributes with
        | .error fault => .error (.naming fault)
        | .ok listing => .ok { Element.leaf name with attributes := listing, scope }

/-- A document that is being built: its root, and the open elements, innermost first. -/
structure Building where
  root : Option Element
  opened : List Element
deriving Inhabited

namespace Building

/-- Nothing was read yet. -/
def start : Building := ⟨none, []⟩

/-- The scope of the outermost elements: `xml` is bound. -/
def baseScope : Scope := Scope.empty.bind "xml" QName.xmlSpace

/-- The scope of the innermost open element. -/
def scope (b : Building) : Scope := (b.opened.head?.map (·.scope)).getD baseScope

/-- A finished element goes to the one around it, or becomes the root. -/
def attach (b : Building) (e : Element) : Except Failure Building :=
  match b.opened with
  | parent :: outer => .ok { b with opened := parent.addChild e :: outer }
  | [] => if b.root.isSome then .error (.markup .secondRoot) else .ok { b with root := some e }

/-- The building with character data for the innermost open element. -/
def append (b : Building) (text : String) : Building :=
  match b.opened with
  | e :: outer => { b with opened := e.appendText text :: outer }
  | [] => b

/-- The building after an event. -/
def step (b : Building) : Event → Except Failure Building
  | .start tag => do return { b with opened := (← tag.element b.scope) :: b.opened }
  | .empty tag => do b.attach (← tag.element b.scope)
  | .close =>
    match b.opened with
    | e :: outer => attach { b with opened := outer } e
    | [] => .ok b
  | .text octets =>
    if b.opened.isEmpty then .ok b
    else match (Text.ofOctets? octets).bind fun s => unescape s.toList with
      | some cs => .ok (b.append (String.ofList cs))
      | none => .error (.markup .badText)
  | .data octets =>
    if b.opened.isEmpty then .ok b
    else match Text.ofOctets? octets with
      | some s => .ok (b.append s)
      | none => .error (.markup .badData)
  | .skipped => .ok b

/-- The finished document. -/
def finish (b : Building) : Except Failure Document :=
  if !b.opened.isEmpty then .error (.markup .openElement)
  else match b.root with
    | none => .error (.markup .noRoot)
    | some root => .ok ⟨some root⟩

end Building

/-- The document that events build. -/
def ofEvents (events : List Event) : Except Failure Building :=
  events.foldlM Building.step Building.start

end Markup

namespace Document

/-- The document that a reading stands for. A broken reading fails after its events. -/
def ofReading (r : Markup.Reading) : Except Failure Document := do
  let b ← Markup.ofEvents r.events
  if r.broken then throw (.markup .unreadable) else b.finish

/-- The document that the octets stand for. -/
def parse (bytes : List UInt8) : Except Failure Document := ofReading (Markup.scan bytes)

/-- The document that a text stands for. -/
def ofText (s : String) : Except Failure Document := parse (Text.octets s)

end Document

end Conform
