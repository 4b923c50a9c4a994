import Conform.Text.Cut
import Conform.Text.Quoted
/-!
# Qualified names

A qualified name is a namespace with a local name. Names are ordered by namespace first, so that
those without a namespace come first.
-/

namespace Conform

/-- What can be wrong with a written name. -/
inductive NameFault where
  /-- An opening brace without its closing one. -/
  | unclosed (text : String)
  /-- A name with a prefix that nothing binds. -/
  | unknownPrefix (label : String)
  /-- A path with a prefix that nothing binds. -/
  | unmappedPrefix (label : String)
deriving DecidableEq, Repr

def NameFault.message : NameFault → String
  | .unclosed text => "wrong format for QName " ++ Text.quoted text
  | .unknownPrefix label => "Unknown prefix: " ++ label
  | .unmappedPrefix label => "unmapped prefix '" ++ label ++ "' in XPath expression"

/-- A qualified name. The empty namespace stands for none. -/
structure QName where
  space : String
  base : String
deriving DecidableEq, Repr, Inhabited

namespace QName

/-- A name without a namespace. -/
def plain (base : String) : QName := ⟨"", base⟩

/-- The namespace of schema components. -/
def schemaSpace : String := "http://www.w3.org/2001/XMLSchema"

/-- The namespace of the names that begin with `xml`. -/
def xmlSpace : String := "http://www.w3.org/XML/1998/namespace"

/-- The namespace of the attributes by which a document speaks to its schema. -/
def instanceSpace : String := "http://www.w3.org/2001/XMLSchema-instance"

/-- The extended form: the namespace in braces, then the local name. -/
def text (n : QName) : String :=
  if n.space = "" then n.base else "\x7b" ++ n.space ++ "\x7d" ++ n.base

/-- The name that an extended form writes. -/
def ofText? (s : String) : Except NameFault QName :=
  match s.toList with
  | '\x7b' :: rest =>
    match Text.cut '\x7d' rest with
    | some (space, base) => .ok ⟨String.ofList space, String.ofList base⟩
    | none => .error (.unclosed s)
  | _ => .ok (plain s)

/-- Whether a name comes before another. -/
def before (a b : QName) : Bool :=
  if a.space = b.space then a.base < b.base else a.space < b.space

/-- The names with `n` at its place. -/
def place (n : QName) : List QName → List QName
  | [] => [n]
  | m :: rest =>
    if n = m then m :: rest else if before n m then n :: m :: rest else m :: place n rest

/-- The names in order, each once. -/
def sorted (names : List QName) : List QName := names.foldr place []

end QName

end Conform
