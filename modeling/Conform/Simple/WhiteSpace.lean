import Conform.Text.Blank
/-!
# White space of simple types

What a simple type does to white space before it reads a value.
-/

namespace Conform

/-- How white space is normalized. -/
inductive WhiteSpace where
  | preserve
  /-- Tabs and line ends become spaces. -/
  | replace
  /-- Words are kept with one space between them. -/
  | collapse
deriving DecidableEq, Repr

/-- The text with its white space normalized. -/
def WhiteSpace.normalize (mode : WhiteSpace) (cs : List Char) : List Char :=
  match mode with
  | preserve => cs
  | replace => cs.map fun c => if c = '\t' || c = '\n' || c = '\r' then ' ' else c
  | collapse => [' '].intercalate (Text.words cs)

end Conform
