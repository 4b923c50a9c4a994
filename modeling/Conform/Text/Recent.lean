import Conform.Text.Letter
import Conform.Text.Numeral
/-!
# Letters and numerals by edition

The tables of letters and numerals are those of version 17 of the character database. Version 16 has
the same ones without those that are listed here.
-/

namespace Conform.Text

/-- Code points of the letters and numerals that came with version 17. -/
def recentRanges : List (Nat × Nat) :=
  [(2191, 2191), (3164, 3164), (3292, 3292), (42958, 42959), (42962, 42962), (42964, 42964),
   (42993, 42993), (67904, 67929), (69317, 69319), (73136, 73179), (73184, 73193), (93856, 93880),
   (93883, 93907), (94194, 94198), (100344, 100351), (101641, 101662), (101760, 101874),
   (124608, 124638), (124640, 124642), (124644, 124645), (124647, 124653), (124656, 124660),
   (124670, 124671), (177978, 177983), (183970, 183981), (205744, 210041)]

/-- A letter or a numeral that came with version 17. -/
def isRecent (c : Char) : Bool := inRanges recentRanges c.toNat

/-- A letter of version 16. -/
def isLetter16 (c : Char) : Bool := isLetter c && !isRecent c

/-- A numeral of version 16. -/
def isNumeral16 (c : Char) : Bool := isNumeral c && !isRecent c

end Conform.Text
