/-!
# Markup events

A document is a row of events: tags, pieces of text and sections without meaning for its content.
The octets of names, attributes and text are kept as they stand.
-/

namespace Conform.Markup

/-- A start tag or an empty tag: the name, and the octets after it. -/
structure Tag where
  name : List UInt8
  rest : List UInt8
deriving DecidableEq, Repr

/-- An event of a document. -/
inductive Event where
  | start (tag : Tag)
  | empty (tag : Tag)
  /-- The end of the innermost open element. -/
  | close
  /-- Character data with references. -/
  | text (octets : List UInt8)
  /-- Character data without references. -/
  | data (octets : List UInt8)
  /-- A comment, a processing instruction or a declaration. -/
  | skipped
deriving DecidableEq, Repr

/-- The events of a document, up to a section that cannot be read if it is broken. -/
structure Reading where
  events : List Event
  broken : Bool
deriving DecidableEq, Repr

def Reading.cons (e : Event) (r : Reading) : Reading := { r with events := e :: r.events }

end Conform.Markup
