import Conform.Text.Alphabetic
/-!
# Names without a colon

A plain name begins with an alphabetic character or an underscore and goes on with alphabetic
characters, numerals, underscores, hyphens and points.
-/

namespace Conform

def isNameStart (c : Char) : Bool := Text.isAlphabetic c || c = '_'

def isNameChar (c : Char) : Bool := Text.isAlphanumeric c || c = '_' || c = '-' || c = '.'

/-- A name without a colon. -/
def isPlainName : List Char → Bool
  | [] => false
  | c :: rest => isNameStart c && rest.all isNameChar

end Conform
