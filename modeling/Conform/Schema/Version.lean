import Conform.Failure
/-!
# Versions of the schema language
-/

namespace Conform

/-- The version of the schema language. -/
inductive Version where
  | v10
  /-- An `all` group may hold groups, and its members may occur more than once. -/
  | v11
deriving DecidableEq, Repr, Inhabited

namespace Version

def text : Version → String
  | v10 => "1.0"
  | v11 => "1.1"

def ofText? (s : String) : Option Version := [v10, v11].find? fun v => s = v.text

/-- The version with this text. -/
def ofText (s : String) : Except Failure Version :=
  match ofText? s with
  | some v => .ok v
  | none => .error (.misuse (.badVersion s))

end Version

end Conform
