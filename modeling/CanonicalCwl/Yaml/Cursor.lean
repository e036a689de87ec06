/-!
# Places in a YAML Text

The character classes of YAML and the cursor that walks through a text. A line ends with a line
feed, a carriage return, both, or one of three other break characters; the last two of these
are kept as they are, the others count as line feeds.
-/

namespace CanonicalCwl.Yaml

/-- The characters that a text may hold. -/
def isAllowed (c : Char) : Bool :=
  let n := c.toNat
  n == 0x09 || n == 0x0A || n == 0x0D || (0x20 ≤ n && n ≤ 0x7E) || n == 0x85 ||
    (0xA0 ≤ n && n ≤ 0xD7FF) || (0xE000 ≤ n && n ≤ 0xFFFD) || 0x10000 ≤ n

/-- The byte order mark. -/
def byteOrderMark : Char := '\uFEFF'

/-- A space or a tab. -/
def isBlank (c : Char) : Bool := c == ' ' || c == '\t'

/-- A character that ends a line. -/
def isBreak (c : Char) : Bool :=
  c == '\n' || c == '\r' || c == '\u0085' || c == '\u2028' || c == '\u2029'

/-- A letter, a digit, an underscore or a hyphen of ASCII. -/
def isWord (c : Char) : Bool := c.isAlphanum || c == '_' || c == '-'

/-- Whether the next character, if any, is a blank or ends the line. -/
def atGap : List Char → Bool
  | c :: _ => isBlank c || isBreak c
  | [] => true

/-- Whether the line ends here. -/
def atLineEnd : List Char → Bool
  | c :: _ => isBreak c
  | [] => true

/-- A place in a text, with what follows it. -/
structure Cursor where
  rest : List Char
  /-- The number of characters before the place. -/
  index : Nat
  line : Nat
  column : Nat

namespace Cursor

/-- The beginning of a text. A byte order mark in front of the text is no part of it. -/
def start (text : List Char) : Cursor :=
  ⟨if text.head? == some byteOrderMark then text.tail else text, 0, 0, 0⟩

/-- Step over characters of one line. -/
def advance (c : Cursor) (n : Nat) : Cursor :=
  { c with rest := c.rest.drop n, index := c.index + n, column := c.column + n }

/-- The place after a line break that `n` characters make up. -/
def newLine (c : Cursor) (n : Nat) : Cursor :=
  ⟨c.rest.drop n, c.index + n, c.line + 1, 0⟩

/-- Step over a line break; the character it counts as is given too. -/
def lineBreak? (c : Cursor) : Option (Char × Cursor) :=
  match c.rest with
  | '\r' :: '\n' :: _ => some ('\n', c.newLine 2)
  | b :: _ =>
      if b == '\u2028' || b == '\u2029' then some (b, c.newLine 1)
      else if isBreak b then some ('\n', c.newLine 1)
      else none
  | [] => none

/-- Step over the characters of a class that holds no line break. -/
def takeWhile (p : Char → Bool) (c : Cursor) : List Char × Cursor :=
  let taken := c.rest.takeWhile p
  (taken, c.advance taken.length)

/-- Step over the characters of a class that holds no line break. -/
def dropWhile (p : Char → Bool) (c : Cursor) : Cursor := (c.takeWhile p).2

/-- Step over a comment, up to the end of its line. -/
def skipComment (c : Cursor) : Cursor :=
  if c.rest.head? == some '#' then c.dropWhile (!isBreak ·) else c

/-- Whether three of a character stand alone at the beginning of a line. -/
def atMarker (c : Cursor) (mark : Char) : Bool :=
  c.column == 0 && c.rest.take 3 == [mark, mark, mark] && atGap (c.rest.drop 3)

/-- Whether a document begins or ends here by a marker. -/
def atDocumentMarker (c : Cursor) : Bool := c.atMarker '-' || c.atMarker '.'

end Cursor

end CanonicalCwl.Yaml
