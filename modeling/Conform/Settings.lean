import Conform.Decode.Options
import Conform.Json.Record
import Conform.Limits
import Conform.Schema.Version
import Conform.Schema.Wildcard
/-!
# Settings as JSON

Options, limits and the words in them are kept as JSON. A missing field has its usual value.
-/

namespace Conform

/-- The word of JSON for one of some values. -/
def Json.wordAmong? {α : Type} (text : α → String) (all : List α) (r : Json.Raw) : Option α := do
  let w ← r.word?
  all.find? fun a => w = text a

namespace AbsentKeyPolicy

def ofRaw? : Json.Raw → Option AbsentKeyPolicy := Json.wordAmong? text [error, exclude, warn]

def toJson (p : AbsentKeyPolicy) : String := Json.printText p.text

/-- The record that holds nothing but the policy. -/
def ofRecord? (r : Json.Raw) : Option AbsentKeyPolicy := do
  match ← r.record? ["absent_key_field"] with
  | [policy] => Json.fieldOr ofRaw? .error policy
  | _ => none

def toRecord (p : AbsentKeyPolicy) : String := Json.printObject [("absent_key_field", p.toJson)]

end AbsentKeyPolicy

namespace Mode

def ofRaw? : Json.Raw → Option Mode := Json.wordAmong? text all

def toJson (m : Mode) : String := Json.printText m.text

end Mode

namespace Processing

def ofRaw? : Json.Raw → Option Processing := Json.wordAmong? text [strict, lax, skip]

def toJson (p : Processing) : String := Json.printText p.text

end Processing

namespace Version

def ofRaw? : Json.Raw → Option Version := Json.wordAmong? text [v10, v11]

def toJson (v : Version) : String := Json.printText v.text

end Version

namespace Limits

def ofRaw? (r : Json.Raw) : Option Limits := do
  match ← r.record? ["max_model_depth", "max_xml_depth"] with
  | [model, markup] =>
    return ⟨← Json.fieldOr Json.Raw.count? standard.maxModelDepth model,
      ← Json.fieldOr Json.Raw.count? standard.maxMarkupDepth markup⟩
  | _ => none

def toJson (l : Limits) : String :=
  Json.printObject [("max_model_depth", toString l.maxModelDepth),
    ("max_xml_depth", toString l.maxMarkupDepth)]

end Limits

namespace Options

/-- A bound on the depth, or `null` for none. -/
def depthOfRaw? : Json.Raw → Option (Option Nat)
  | .null => some none
  | r => r.count?.map some

def ofRaw? (r : Json.Raw) : Option Options := do
  match ← r.record? ["mode", "max_depth", "identities", "use_defaults"] with
  | [mode, depth, identities, defaults] =>
    return ⟨← Json.fieldOr Mode.ofRaw? standard.mode mode,
      ← Json.fieldOr depthOfRaw? standard.maxDepth depth,
      ← Json.fieldOr AbsentKeyPolicy.ofRecord? standard.absentKeys identities,
      ← Json.fieldOr Json.Raw.bool? standard.usesDefaults defaults⟩
  | _ => none

def toJson (o : Options) : String :=
  Json.printObject [("mode", o.mode.toJson),
    ("max_depth", (o.maxDepth.map toString).getD "null"),
    ("identities", o.absentKeys.toRecord),
    ("use_defaults", if o.usesDefaults then "true" else "false")]

end Options

end Conform
