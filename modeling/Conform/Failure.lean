import Conform.Diagnostic
import Conform.Name.Basic
/-!
# Failures

What ends a call: a diagnostic in strict mode, a schema that cannot be built, a limit that is
reached, a document that cannot be read, or a use that makes no sense.
-/

namespace Conform

/-- Why a schema cannot be built. -/
inductive SchemaFault where
  | occursOrder (occurs : Occurs)
  | badNamespaceToken (token field : String)
  | badPath (role path : String)
  | allNotOnTop
  | allOccurs
  | allElementOccurs
  | allMember
  | keyNotFound (name : QName)
  | notKey (identity : String)
  | fieldCount (identity : String)
  | stated (text : String)
deriving DecidableEq, Repr

def SchemaFault.message : SchemaFault → String
  | occursOrder o =>
    "maxOccurs (" ++ toString (o.max.getD 0).toNat ++
      ") must be 'unbounded' or not lower than minOccurs (" ++ toString o.min.toNat ++ ")"
  | badNamespaceToken token field => "wrong value '" ++ token ++ "' in '" ++ field ++ "' attribute"
  | badPath role path => "invalid XPath expression for an identity " ++ role ++ ": '" ++ path ++ "'"
  | allNotOnTop => "an 'all' model group must appear at the top of a content model"
  | allOccurs => "an 'all' model group must have maxOccurs=1 and minOccurs 0 or 1"
  | allElementOccurs => "an element of an 'all' model group can't have maxOccurs > 1"
  | allMember => "an 'all' model group can contain only element declarations"
  | keyNotFound name => "key/unique '" ++ name.text ++ "' not found"
  | notKey identity => identity ++ " is not a key or a unique"
  | fieldCount identity => "field cardinality mismatch with the referred " ++ identity
  | stated text => text

/-- A use that makes no sense. -/
inductive Misuse where
  | badMode (text : String)
  | badVersion (text : String)
  | badUse (text : String)
  | modelDepthTooLow (depth : Nat)
  | noMarkupDepth
  | repeatedMember (member : Member) (group : GroupId)
  | ownedMember (member : Member) (group : GroupId)
  /-- A handle without a component, by its text. -/
  | dangling (handle : String)
  | notParticle (member : Member) (root : GroupId)
  | modelEnded
deriving DecidableEq, Repr

/-- The least bound on the depth of models. -/
def minModelDepth : Nat := 5

def Misuse.message : Misuse → String
  | badMode text =>
    "Invalid validation mode: '" ++ text ++ "'. Must be 'strict', 'lax', or 'skip'"
  | badVersion text => "Invalid XSD version: '" ++ text ++ "'. Must be '1.0' or '1.1'"
  | badUse text =>
    "attribute use must be 'optional', 'required' or 'prohibited', not '" ++ text ++ "'"
  | modelDepthTooLow depth =>
    "maximum model depth must be at least " ++ toString minModelDepth ++ ", got " ++ toString depth
  | noMarkupDepth => "maximum XML depth must be a positive integer"
  | repeatedMember member group => member.text ++ " is repeated in " ++ group.text
  | ownedMember member group => member.text ++ " already belongs to " ++ group.text
  | dangling handle => "dangling handle " ++ handle
  | notParticle member root => member.text ++ " is not a particle of " ++ root.text
  | modelEnded => "cannot advance, model is ended"

/-- Why a document cannot be read. -/
inductive MarkupFault where
  /-- The octets do not fall into tags, text and the other sections. -/
  | unreadable
  | badText
  | badAttributeValue
  | badAttribute
  | badData
  | badAttributeName
  | badElementName
  | openElement
  | noRoot
  | secondRoot
deriving DecidableEq, Repr

def MarkupFault.message : MarkupFault → String
  | unreadable => "Error parsing XML"
  | badText => "Failed to unescape text"
  | badAttributeValue => "Failed to unescape attribute value"
  | badAttribute => "Failed to parse attribute"
  | badData => "Invalid CDATA section"
  | badAttributeName => "Invalid attribute name"
  | badElementName => "Invalid element name"
  | openElement => "unexpected end of document"
  | noRoot => "missing root element"
  | secondRoot => "junk after document element"

/-- What ends a call. -/
inductive Failure where
  /-- The diagnostic that ends a strict pass. -/
  | invalid (diagnostic : Diagnostic)
  | schema (fault : SchemaFault) (component : Option String)
  | modelDepth (depth max : Nat) (group : Option String)
  | circular (component name : String) (cycle : List String)
  | notSimple (type : TypeId)
  | misuse (fault : Misuse)
  | naming (fault : NameFault)
  | markupDepth (depth max : Nat)
  | markup (fault : MarkupFault)
  /-- A content model that goes on without taking a child. -/
  | endlessModel
deriving DecidableEq, Repr

namespace Failure

def message : Failure → String
  | invalid d => "validation error: " ++ d.text
  | schema fault component =>
    "parse error: " ++ fault.message ++ (component.elim "" ("\n\nComponent: " ++ ·))
  | modelDepth depth max group =>
    "maximum model recursion depth (" ++ toString max ++ ") exceeded (at depth " ++
      toString depth ++ ")" ++ (group.elim "" (" while iterating " ++ ·))
  | circular component name cycle =>
    "Circular definition detected for xs:" ++ component ++ " '" ++ name ++ "'" ++
      (if cycle = [] then "" else " (cycle: " ++ String.intercalate " -> " cycle ++ ")")
  | notSimple type => "type error: " ++ type.text ++ " is not a simple type"
  | misuse fault => "value error: " ++ fault.message
  | naming fault => "namespace error: " ++ fault.message
  | markupDepth depth max =>
    "limit exceeded: XML depth " ++ toString depth ++ " exceeds maximum " ++ toString max
  | markup fault => fault.message
  | endlessModel => "the content model has no end"

/-- The failure, against a component if it is one of the schema. -/
def against (component : String) : Failure → Failure
  | schema fault _ => schema fault (some component)
  | f => f

end Failure

end Conform
