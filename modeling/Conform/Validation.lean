import Conform.Decode.Document
/-!
# Validation

Decoding and validating documents against a schema. A document is valid if a lax pass over it finds
no error; warnings do not count.
-/

namespace Conform.Schema

/-- The decoded document, if its root has a declaration, and the collected diagnostics. -/
def decode (s : Schema) (d : Document) (o : Options) :
    Except Failure (Option Decoded × List Diagnostic) :=
  s.decodeDocument d o

/-- All diagnostics of a document. -/
def diagnostics (s : Schema) (d : Document) : Except Failure (List Diagnostic) := do
  return (← s.decode d (.ofMode .lax)).2

/-- Whether a document has no error. -/
def isValid (s : Schema) (d : Document) : Bool :=
  match s.diagnostics d with
  | .ok ds => !ds.any Diagnostic.isError
  | .error _ => false

/-- Fails at the first error of a document. -/
def validate (s : Schema) (d : Document) : Except Failure Unit := do
  let _ ← s.decode d (.ofMode .strict)

/-- Fails at the first error of the document that a text stands for. -/
def validateText (s : Schema) (text : String) : Except Failure Unit := do
  s.validate (← Document.ofText text)

/-- Whether a text stands for a document without errors. -/
def isValidText (s : Schema) (text : String) : Bool :=
  match Document.ofText text with
  | .ok d => s.isValid d
  | .error _ => false

end Schema

/-- An item of the stream in which a decoded document is handed out. -/
inductive DecodeItem where
  | diagnostic (d : Diagnostic)
  | value (v : Decoded)

namespace DecodeItem

/-- The item as a JSON text. -/
def print : DecodeItem → String
  | diagnostic d => Json.printObject [("error", d.toJson.print)]
  | value v => Json.printObject [("value", v.print)]

end DecodeItem

/-- The diagnostics of a document, followed by its value. -/
def Schema.decodeItems (s : Schema) (d : Document) (o : Options) :
    Except Failure (List DecodeItem) := do
  let (value, ds) ← s.decode d o
  return ds.map .diagnostic ++ value.toList.map .value

end Conform
