import Conform.Markup.Event
/-!
# Scanning octets

The octets of a document fall into events. A tag ends at the first closing bracket that is not
quoted, other sections at their own marks. A section that the octets leave open ends with them,
except for comments, data and document types, which must be closed.
-/

namespace Conform.Markup

/-- Space, tab, carriage return or line feed. -/
def isSpace (b : UInt8) : Bool := b = 32 || b = 9 || b = 13 || b = 10

/-- The octets of an ASCII text. -/
def ascii (s : String) : List UInt8 := s.toList.map fun c => c.toNat.toUInt8

/-- `<` -/
def openBracket : UInt8 := 60

/-- `>` -/
def closeBracket : UInt8 := 62

/-- What stands before the first octet `b`, and what follows it. -/
def upTo (b : UInt8) (bytes : List UInt8) : List UInt8 × List UInt8 :=
  (bytes.takeWhile (· != b), (bytes.dropWhile (· != b)).drop 1)

/-- The content of a tag, and what follows its closing bracket. -/
def splitTag : Option UInt8 → List UInt8 → List UInt8 × List UInt8
  | _, [] => ([], [])
  | none, b :: rest =>
    if b = closeBracket then ([], rest)
    else
      let (content, after) := splitTag (if b = 34 || b = 39 then some b else none) rest
      (b :: content, after)
  | some quote, b :: rest =>
    let (content, after) := splitTag (if b = quote then none else some quote) rest
    (b :: content, after)

/-- The tag with this content. It is empty if a slash ends it. -/
def tagEvent (content : List UInt8) : Event :=
  if content.getLast? = some 47 then
    let inner := content.dropLast
    .empty ⟨inner.takeWhile fun b => !isSpace b, inner.dropWhile fun b => !isSpace b⟩
  else .start ⟨content.takeWhile fun b => !isSpace b, content.dropWhile fun b => !isSpace b⟩

/-- The name of an end tag: its content without white space at the end. -/
def closeName (content : List UInt8) : List UInt8 :=
  match content.reverse.dropWhile isSpace with
  | [] => content
  | trimmed => trimmed.reverse

/-- Whether octets begin as a lower case text does, with letters of either case. -/
def startsWithWord (word : String) (bytes : List UInt8) : Bool :=
  ((ascii word).zip bytes).all (fun (a, b) => a = b || (65 ≤ b && b ≤ 90 && a = b + 32)) &&
    word.length ≤ bytes.length

/-- The content up to the first closing bracket at which `closes` holds of what was read, in
reverse, and what follows it. -/
def splitAtClose (closes : List UInt8 → Bool) :
    List UInt8 → List UInt8 → Option (List UInt8 × List UInt8)
  | _, [] => none
  | seen, b :: rest =>
    if b = closeBracket && closes seen then some (seen.reverse, rest)
    else splitAtClose closes (b :: seen) rest

/-- As many brackets were opened as closed. -/
def isBalanced (seen : List UInt8) : Bool :=
  seen.count openBracket = seen.count closeBracket

/-- The section after `<!`: a comment, a section of data or a document type. -/
def readDeclaration (bytes : List UInt8) : Option (Event × List UInt8) :=
  match bytes.head? with
  | some 45 =>
    match splitAtClose (fun seen => 4 ≤ seen.length && (ascii "--").isPrefixOf seen) [] bytes with
    | some (content, rest) =>
      if (ascii "--").isPrefixOf content then some (.skipped, rest) else none
    | none => none
  | some 91 =>
    match splitAtClose (fun seen => (ascii "]]").isPrefixOf seen) [] bytes with
    | some (content, rest) =>
      let inner := content.take (content.length - 2)
      if startsWithWord "[cdata[" inner then some (.data (inner.drop 7), rest) else none
    | none => none
  | some b =>
    if b = 68 || b = 100 then
      match splitAtClose isBalanced [] bytes with
      | some (content, rest) =>
        if startsWithWord "doctype" content && (content.drop 7).any (fun b => !isSpace b) then
          some (.skipped, rest)
        else none
      | none => none
    else none
  | none => none

/-- The section after `<?`: it ends with a question mark at the first closing bracket. -/
def readInstruction (bytes : List UInt8) : Option (Event × List UInt8) :=
  let (content, rest) := upTo closeBracket bytes
  if 2 ≤ content.length && content.getLast? = some 63 then some (.skipped, rest) else none

/-- The events of the octets, with the names of the open elements, innermost first. -/
def scanFrom : Nat → List (List UInt8) → List UInt8 → Reading
  | 0, _, _ => ⟨[], false⟩
  | fuel + 1, names, bytes =>
    match bytes with
    | [] => ⟨[], false⟩
    | b :: rest =>
      if b ≠ openBracket then
        .cons (.text (bytes.takeWhile (· != openBracket)))
          (scanFrom fuel names (bytes.dropWhile (· != openBracket)))
      else
        match rest with
        | [] => ⟨[], false⟩
        | 33 :: rest =>
          match readDeclaration rest with
          | some (e, rest) => .cons e (scanFrom fuel names rest)
          | none => ⟨[], true⟩
        | 47 :: rest =>
          let (content, rest) := upTo closeBracket rest
          match names with
          | name :: outer =>
            if closeName content = name then .cons .close (scanFrom fuel outer rest)
            else ⟨[], true⟩
          | [] => ⟨[], true⟩
        | 63 :: rest =>
          match readInstruction rest with
          | some (e, rest) => .cons e (scanFrom fuel names rest)
          | none => ⟨[], true⟩
        | rest =>
          let (content, rest) := splitTag none rest
          match tagEvent content with
          | .start tag => .cons (.start tag) (scanFrom fuel (tag.name :: names) rest)
          | e => .cons e (scanFrom fuel names rest)

/-- The octets without a byte order mark in front. -/
def dropMark (bytes : List UInt8) : List UInt8 :=
  match bytes with
  | 0xEF :: 0xBB :: 0xBF :: rest => rest
  | _ => bytes

/-- The events of a document. Every event takes an octet, so their number bounds the events. -/
def scan (bytes : List UInt8) : Reading := scanFrom (bytes.length + 1) [] (dropMark bytes)

end Conform.Markup
