/-!
# White space

The characters with the property White_Space, the cutting of text at them, and the narrower
white space of markup.
-/

namespace Conform.Text

/-- A character with the property White_Space. -/
def isBlank (c : Char) : Bool :=
  let n := c.toNat
  (9 ≤ n && n ≤ 13) || n = 32 || n = 0x85 || n = 0xA0 || n = 0x1680 ||
    (0x2000 ≤ n && n ≤ 0x200A) || n = 0x2028 || n = 0x2029 || n = 0x202F || n = 0x205F ||
    n = 0x3000

/-- Space, tab, carriage return or line feed. -/
def isMarkupBlank (c : Char) : Bool := c = ' ' || c = '\t' || c = '\r' || c = '\n'

theorem isBlank_of_isMarkupBlank {c : Char} (h : isMarkupBlank c = true) : isBlank c = true := by
  simp only [isMarkupBlank, Bool.or_eq_true, decide_eq_true_eq] at h
  rcases h with ((rfl | rfl) | rfl) | rfl <;> decide

/-- The text without white space at its ends. -/
def trimChars (cs : List Char) : List Char :=
  ((cs.dropWhile isBlank).reverse.dropWhile isBlank).reverse

/-- The maximal runs of characters that are not white space. -/
def words (cs : List Char) : List (List Char) :=
  (cs.splitOnP isBlank).filter fun w => !w.isEmpty

/-- The text without white space at its ends. -/
def trim (s : String) : String := String.ofList (trimChars s.toList)

/-- Whether the text holds a character that is not white space. -/
def isVisible (s : String) : Bool := s.toList.any fun c => !isBlank c

end Conform.Text
