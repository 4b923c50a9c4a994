/-!
# Octets as text

Octets of a document are read as UTF-8.
-/

namespace Conform.Text

/-- The text that the octets encode in UTF-8, if they do. -/
def ofOctets? (bytes : List UInt8) : Option String := String.fromUTF8? ⟨bytes.toArray⟩

/-- The octets that encode the text in UTF-8. -/
def octets (s : String) : List UInt8 := s.toByteArray.data.toList

end Conform.Text
