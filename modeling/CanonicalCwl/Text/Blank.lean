import CanonicalCwl.Text.Ranges

/-!
# Blanks

The characters with the white space property, and text without its trailing blanks.
-/

namespace CanonicalCwl.Text

/-- The ranges of the white space property. -/
def blankRanges : Ranges :=
  [
    (0x9, 0xd), (0x20, 0x20), (0x85, 0x85), (0xa0, 0xa0), (0x1680, 0x1680), (0x2000, 0x200a),
    (0x2028, 0x2029), (0x202f, 0x202f), (0x205f, 0x205f), (0x3000, 0x3000)
  ]

/-- Whether a character has the white space property. -/
def isBlank (c : Char) : Bool := blankRanges.has c

/-- The text up to its last character that is not blank. -/
def trimEnd (s : String) : String :=
  String.ofList (s.toList.reverse.dropWhile isBlank).reverse

end CanonicalCwl.Text
