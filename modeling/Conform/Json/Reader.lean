import Conform.Json.Basic
/-!
# Reading JSON

A text is read into a tree that keeps repeated fields and remembers which texts hold escapes that
stand for no character. The exponent of a number is written with `e` and a sign.
-/

namespace Conform.Json

/-- A JSON text as it was written. A text is `none` if its escapes stand for half a character. -/
inductive Raw where
  | null
  | bool (b : Bool)
  | number (text : String)
  | text (s : Option String)
  | list (items : List Raw)
  | object (fields : List (Option String × Raw))
deriving Inhabited, Repr

/-- A piece of a text: a character or an escaped unit of sixteen bits. -/
inductive Piece where
  | char (c : Char)
  | unit (n : Nat)

/-- The characters of the pieces, if every pair of units stands for one. -/
def ofPieces? : List Piece → Option (List Char)
  | [] => some []
  | .char c :: rest => (ofPieces? rest).map (c :: ·)
  | .unit n :: rest =>
    if 0xD800 ≤ n ∧ n < 0xDC00 then
      match rest with
      | .unit m :: rest =>
        if 0xDC00 ≤ m ∧ m < 0xE000 then
          (ofPieces? rest).map (Char.ofNat (0x10000 + (n - 0xD800) * 0x400 + (m - 0xDC00)) :: ·)
        else none
      | _ => none
    else if 0xDC00 ≤ n ∧ n < 0xE000 then none
    else (ofPieces? rest).map (Char.ofNat n :: ·)

/-- The value of a hexadecimal digit. -/
def hexValue? (c : Char) : Option Nat :=
  if '0' ≤ c ∧ c ≤ '9' then some (c.toNat - 48)
  else if 'a' ≤ c ∧ c ≤ 'f' then some (c.toNat - 87)
  else if 'A' ≤ c ∧ c ≤ 'F' then some (c.toNat - 55)
  else none

/-- The character after a backslash that stands for one character. -/
def simpleEscape? (c : Char) : Option Char :=
  match c with
  | '"' => some '"'
  | '\\' => some '\\'
  | '/' => some '/'
  | 'b' => some '\x08'
  | 'f' => some '\x0c'
  | 'n' => some '\n'
  | 'r' => some '\r'
  | 't' => some '\t'
  | _ => none

/-- The pieces up to the closing quote, and what follows it. -/
def readPieces : List Char → Option (List Piece × List Char)
  | [] => none
  | '"' :: rest => some ([], rest)
  | '\\' :: 'u' :: a :: b :: c :: d :: rest => do
    let n := (← hexValue? a) * 4096 + (← hexValue? b) * 256 + (← hexValue? c) * 16 + (← hexValue? d)
    let (pieces, rest) ← readPieces rest
    return (.unit n :: pieces, rest)
  | '\\' :: e :: rest => do
    let c ← simpleEscape? e
    let (pieces, rest) ← readPieces rest
    return (.char c :: pieces, rest)
  | c :: rest => do
    if c.toNat < 32 ∨ c = '\\' then none
    else
      let (pieces, rest) ← readPieces rest
      return (.char c :: pieces, rest)

/-- A text after its opening quote. -/
def readText (cs : List Char) : Option (Option String × List Char) := do
  let (pieces, rest) ← readPieces cs
  return ((ofPieces? pieces).map String.ofList, rest)

/-- Blank between tokens. -/
def isSpace (c : Char) : Bool := c = ' ' || c = '\t' || c = '\n' || c = '\r'

def skipSpace (cs : List Char) : List Char := cs.dropWhile isSpace

/-- At least one digit. -/
def readDigits (cs : List Char) : Option (List Char × List Char) :=
  match cs.takeWhile Char.isDigit with
  | [] => none
  | digits => some (digits, cs.dropWhile Char.isDigit)

/-- The whole part of a number: zero, or digits that do not begin with zero. -/
def readWhole (cs : List Char) : Option (List Char × List Char) :=
  match cs with
  | '0' :: rest =>
    match rest with
    | d :: _ => if d.isDigit then none else some (['0'], rest)
    | [] => some (['0'], [])
  | _ => readDigits cs

/-- The fraction of a number, with its point. -/
def readFraction (cs : List Char) : Option (List Char × List Char) :=
  match cs with
  | '.' :: rest => (readDigits rest).map fun (digits, rest) => ('.' :: digits, rest)
  | _ => some ([], cs)

/-- The exponent of a number, written with `e` and a sign. -/
def readExponent (cs : List Char) : Option (List Char × List Char) :=
  match cs with
  | 'e' :: rest | 'E' :: rest =>
    match rest with
    | '-' :: rest => (readDigits rest).map fun (digits, rest) => ('e' :: '-' :: digits, rest)
    | '+' :: rest => (readDigits rest).map fun (digits, rest) => ('e' :: '+' :: digits, rest)
    | _ => (readDigits rest).map fun (digits, rest) => ('e' :: '+' :: digits, rest)
  | _ => some ([], cs)

/-- A number and what follows it. -/
def readNumber (cs : List Char) : Option (String × List Char) := do
  let (sign, cs) := match cs with
    | '-' :: rest => (['-'], rest)
    | _ => ([], cs)
  let (whole, cs) ← readWhole cs
  let (fraction, cs) ← readFraction cs
  let (exponent, cs) ← readExponent cs
  return (String.ofList (sign ++ whole ++ fraction ++ exponent), cs)

mutual

/-- A value and what follows it. -/
def readValue : Nat → List Char → Option (Raw × List Char)
  | 0, _ => none
  | fuel + 1, cs =>
    match skipSpace cs with
    | 'n' :: 'u' :: 'l' :: 'l' :: rest => some (.null, rest)
    | 't' :: 'r' :: 'u' :: 'e' :: rest => some (.bool true, rest)
    | 'f' :: 'a' :: 'l' :: 's' :: 'e' :: rest => some (.bool false, rest)
    | '"' :: rest => (readText rest).map fun (s, rest) => (.text s, rest)
    | '[' :: rest =>
      match skipSpace rest with
      | ']' :: rest => some (.list [], rest)
      | rest => (readItems fuel rest).map fun (items, rest) => (.list items, rest)
    | '\x7b' :: rest =>
      match skipSpace rest with
      | '\x7d' :: rest => some (.object [], rest)
      | rest => (readFields fuel rest).map fun (fields, rest) => (.object fields, rest)
    | rest => (readNumber rest).map fun (t, rest) => (.number t, rest)

/-- The items of a list up to its end. -/
def readItems : Nat → List Char → Option (List Raw × List Char)
  | 0, _ => none
  | fuel + 1, cs => do
    let (v, rest) ← readValue fuel cs
    match skipSpace rest with
    | ']' :: rest => return ([v], rest)
    | ',' :: rest =>
      let (items, rest) ← readItems fuel rest
      return (v :: items, rest)
    | _ => none

/-- The fields of an object up to its end. -/
def readFields : Nat → List Char → Option (List (Option String × Raw) × List Char)
  | 0, _ => none
  | fuel + 1, cs =>
    match skipSpace cs with
    | '"' :: rest => do
      let (k, rest) ← readText rest
      match skipSpace rest with
      | ':' :: rest =>
        let (v, rest) ← readValue fuel rest
        match skipSpace rest with
        | '\x7d' :: rest => return ([(k, v)], rest)
        | ',' :: rest =>
          let (fields, rest) ← readFields fuel rest
          return ((k, v) :: fields, rest)
        | _ => none
      | _ => none
    | _ => none

end

/-- The tree of a whole text. Every call consumes a character or is the last of its kind, so the
length of the text bounds the depth of the calls. -/
def Raw.read? (s : String) : Option Raw := do
  let cs := s.toList
  let (v, rest) ← readValue (2 * cs.length + 2) cs
  if (skipSpace rest).isEmpty then return v else none

mutual

/-- The value of a tree, if all its texts are made of characters. -/
def Raw.value? : Raw → Option Json
  | .null => some .null
  | .bool b => some (.bool b)
  | .number t => some (.number t)
  | .text s => s.map .text
  | .list items => (Raw.values? items).map .list
  | .object fields => (Raw.fields? fields).map ofFields

/-- The values of trees. -/
def Raw.values? : List Raw → Option (List Json)
  | [] => some []
  | v :: rest => do return (← v.value?) :: (← Raw.values? rest)

/-- The fields of an object. -/
def Raw.fields? : List (Option String × Raw) → Option (List (String × Json))
  | [] => some []
  | (k, v) :: rest => do return ((← k), (← v.value?)) :: (← Raw.fields? rest)

end

/-- The value that a text stands for. -/
def read? (s : String) : Option Json := do (← Raw.read? s).value?

/-- The number that a text stands for. -/
def readNumber? (s : String) : Option Json := do
  let (t, rest) ← readNumber s.toList
  if rest.isEmpty then return .number t else none

end Conform.Json
