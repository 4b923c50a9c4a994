import Conform.Json.Reader
/-!
# Records in JSON

A record is written as an object of its fields, in any order and with others among them, or as the
list of its fields in their order. Fields may be missing; none may come twice. A word is written as
a text, or as an object with that word for its only field and nothing in it.
-/

namespace Conform.Json

/-- The contents of the fields of an object, if every key is made of characters. -/
def keyed? (fields : List (Option String × Raw)) : Option (List (String × Raw)) :=
  fields.mapM fun f => f.1.map fun k => (k, f.2)

/-- The content of the only field with a name. It is no record if there is more than one. -/
def onlyField? (fields : List (String × Raw)) (name : String) : Option (Option Raw) :=
  match fields.filter fun f => f.1 = name with
  | [] => some none
  | [f] => some (some f.2)
  | _ => none

/-- The fields with the given names. -/
def Raw.record? (names : List String) : Raw → Option (List (Option Raw))
  | .object fields => do names.mapM (onlyField? (← keyed? fields))
  | .list items =>
    if items.length ≤ names.length then
      some (items.map some ++ List.replicate (names.length - items.length) none)
    else none
  | _ => none

/-- The word that a tree stands for. -/
def Raw.word? : Raw → Option String
  | .text s => s
  | .object [(some s, .null)] => some s
  | _ => none

/-- The number of at most 64 bits that a tree stands for. -/
def Raw.count? : Raw → Option Nat
  | .number t =>
    let n := Nat.ofDigitChars 10 t.toList 0
    if t.toList.all Char.isDigit ∧ n < Nat.pow 2 64 then some n else none
  | _ => none

/-- The truth value that a tree stands for. -/
def Raw.bool? : Raw → Option Bool
  | .bool b => some b
  | _ => none

/-- The value of a field, with another one if the field is missing. -/
def fieldOr {α : Type} (read? : Raw → Option α) (default : α) : Option Raw → Option α
  | none => some default
  | some r => read? r

end Conform.Json
