import CanonicalCwl.Json.Printer
import CanonicalCwl.Yaml.Cursor
import CanonicalCwl.Yaml.Plain

/-!
# YAML Text of a Tree

A tree is written in block style, two columns a level. The items of a sequence stand under its
key without indentation, and empty collections are pairs of brackets. A text is written plainly
if it reads back as itself; else it gets single quotes, double quotes if it holds characters
that need an escape, or, if it has several lines, a literal block. A key of several lines or of
more than 128 bytes is announced by a question mark.

- `Notation.ofText` chooses the notation of a text.
- `Yaml.write` writes a tree.
-/

namespace CanonicalCwl.Yaml

/-! ## Properties of a text -/

/-- The characters that are written without an escape. -/
def isPrintable (c : Char) : Bool :=
  let n := c.toNat
  n == 0x0A || (0x20 ≤ n && n ≤ 0x7E) || (0xA0 ≤ n && n ≤ 0xD7FF) ||
    (0xE000 ≤ n && n ≤ 0xFFFD && c != byteOrderMark) || 0x10000 ≤ n

/-- Whether a character ends a word: a blank, a line break, or the null character. -/
def isGap (c : Char) : Bool := isBlank c || isBreak c || c == '\x00'

/-- Whether the next character, if any, ends a word. -/
def beforeGap (rest : List Char) : Bool := rest.head?.all isGap

/-- Whether a text after its first character holds a colon that would end a key or a mark that
would begin a comment. `afterGap` tells of the character before. -/
def hasInnerIndicator (afterGap : Bool) : List Char → Bool
  | [] => false
  | c :: rest =>
      (c == ':' && beforeGap rest) || (c == '#' && afterGap) || hasInnerIndicator (isGap c) rest

/-- Whether a text begins like something else than a plain scalar. -/
def hasLeadingIndicator (cs : List Char) : Bool :=
  cs.take 3 == ['-', '-', '-'] || cs.take 3 == ['.', '.', '.'] ||
    match cs with
    | c :: rest =>
        "#,[]\x7b\x7d&*!|>'\"%@\x60".toList.contains c ||
          ("?:-".toList.contains c && beforeGap rest)
    | [] => false

/-- Whether two neighbours satisfy two conditions. -/
def hasNeighbours (p q : Char → Bool) : List Char → Bool
  | a :: b :: rest => (p a && q b) || hasNeighbours p q (b :: rest)
  | _ => false

/-- Whether a text has several lines. -/
def isMultiline (cs : List Char) : Bool := cs.any isBreak

/-- A space. -/
def isSpace (c : Char) : Bool := c == ' '

/-- Whether only escapes can write a text: it has a character that needs one, or a line that
ends with a space. -/
def needsEscapes (cs : List Char) : Bool :=
  cs.any (!isPrintable ·) || hasNeighbours isSpace isBreak cs

/-- Whether a text can be written without quotes. -/
def allowsPlain (cs : List Char) : Bool :=
  !(cs.head?.any isSpace || cs.getLast?.any isSpace || isMultiline cs || needsEscapes cs ||
    hasLeadingIndicator cs || hasInnerIndicator (cs.head?.any isGap) (cs.drop 1))

/-- Whether a text can be written in single quotes. -/
def allowsSingle (cs : List Char) : Bool := !(needsEscapes cs || hasNeighbours isBreak isSpace cs)

/-- Whether a text can be written as a literal block. -/
def allowsLiteral (cs : List Char) : Bool := !(needsEscapes cs || cs.getLast?.any isSpace)

/-- Whether a text without quotes would be read as something else. An integer beyond 64 bits is
read as nothing at all and does not count. -/
def readsDifferently (s : String) : Bool :=
  match Plain.meaning s with
  | .text => Plain.hasLeadingZero s.toList
  | .int n => -2 ^ 63 ≤ n && n < 2 ^ 64
  | _ => true

/-! ## Notations -/

/-- The ways to write a text. -/
inductive Notation where
  | plain
  | single
  | double
  | literal
  deriving DecidableEq

/-- The notation of a text. -/
def Notation.ofText (s : String) : Notation :=
  let cs := s.toList
  -- Several lines are a block if they can be; the other notations would fold them.
  if cs.contains '\n' then (if allowsLiteral cs then literal else double)
  else if allowsPlain cs && !readsDifferently s then plain
  else if allowsSingle cs then single
  else double

/-- Spaces up to a column. -/
def indentation (n : Nat) : List Char := List.replicate n ' '

/-- The inside of single quotes: a quote is doubled, and after line breaks the text goes on at
the indentation. `broken` tells that a line has just ended. -/
def singleBody (indent : Nat) (broken : Bool) : List Char → List Char
  | [] => if broken then indentation indent else []
  | c :: rest =>
      if isBreak c then c :: singleBody indent true rest
      else
        (if broken then indentation indent else []) ++ (if c == '\'' then ['\''] else []) ++
          c :: singleBody indent false rest

/-- An upper-case hexadecimal digit. -/
def upperHexDigit (n : Nat) : Char := (Json.hexDigit n).toUpper

/-- The hexadecimal digits of a number, at a width. -/
def upperHex (width n : Nat) : List Char :=
  (List.range width).map fun i => upperHexDigit (n / 16 ^ (width - 1 - i) % 16)

/-- What stands after the backslash of an escape. -/
def escapeBody (c : Char) : List Char :=
  match c with
  | '\x00' => ['0']
  | '\x07' => ['a']
  | '\x08' => ['b']
  | '\t' => ['t']
  | '\n' => ['n']
  | '\x0b' => ['v']
  | '\x0c' => ['f']
  | '\r' => ['r']
  | '\x1b' => ['e']
  | '"' => ['"']
  | '\\' => ['\\']
  | '\u0085' => ['N']
  | '\u2028' => ['L']
  | '\u2029' => ['P']
  | c =>
      if c.toNat ≤ 0xFF then 'x' :: upperHex 2 c.toNat
      else if c.toNat ≤ 0xFFFF then 'u' :: upperHex 4 c.toNat
      else 'U' :: upperHex 8 c.toNat

/-- A character inside double quotes. -/
def doubleChar (c : Char) : List Char :=
  if !isPrintable c || isBreak c || c == '"' || c == '\\' then '\\' :: escapeBody c else [c]

/-- The lines of a literal block: lines that are not empty are indented. -/
def literalBody (indent : Nat) (broken : Bool) : List Char → List Char
  | [] => []
  | c :: rest =>
      if isBreak c then c :: literalBody indent true rest
      else (if broken then indentation indent else []) ++ c :: literalBody indent false rest

/-- The indicator for the line breaks at the end of a literal block. -/
def chompingHint (cs : List Char) : List Char :=
  match cs.reverse with
  | [] => ['-']
  | [last] => if isBreak last then ['+'] else ['-']
  | last :: before :: _ =>
      if !isBreak last then ['-'] else if isBreak before then ['+'] else []

/-- The header of a literal block. One that begins with a space or an empty line says how far
it is indented. -/
def literalHeader (cs : List Char) : List Char :=
  '|' :: (if cs.head?.any fun c => isSpace c || isBreak c then ['2'] else []) ++ chompingHint cs

/-- A text in its notation; its lines after the first one are at the indentation. -/
def textBody (indent : Nat) (s : String) : List Char :=
  let cs := s.toList
  match Notation.ofText s with
  | .plain => cs
  | .single => '\'' :: singleBody indent false cs ++ ['\'']
  | .double => '"' :: cs.flatMap doubleChar ++ ['"']
  | .literal => literalHeader cs ++ '\n' :: literalBody indent true cs

/-! ## Trees -/

/-- Numbers are plain from `1e-5` up to `1e15`, and no exponent carries a plus sign. -/
def floatStyle : FloatStyle := ⟨-5, 15, false⟩

/-- End a line, unless it has ended already. -/
def endLine (cs : List Char) : List Char := if cs.getLast?.any isBreak then cs else cs ++ ['\n']

/-- A node without block children, whose further lines are at the indentation. -/
def leafBody (indent : Nat) : Value → List Char
  | .null => "null".toList
  | .bool b => (if b then "true" else "false").toList
  | .int i => (toString i.toInt).toList
  | .float x => (floatStyle.write x).toList
  | .string s => textBody indent s
  | .sequence _ => ['[', ']']
  | .mapping _ => ['\x7b', '\x7d']

/-- Whether a key fits in front of its colon. -/
def isSimpleKey (key : String) : Bool := !isMultiline key.toList && key.utf8ByteSize ≤ 128

/-- A key up to and with its colon. The key stands at a column. -/
def keyBody (column : Nat) (key : String) : List Char :=
  let text := textBody (column + 2) key
  if isSimpleKey key then text ++ [':']
  else '?' :: ' ' :: endLine text ++ indentation column ++ [':', ' ']

/-- Where a node is written. -/
inductive Place where
  /-- At a column of a line, where its further lines begin too. -/
  | line
  /-- After the colon of a key at a column. -/
  | afterKey
  deriving DecidableEq

/-- What stands in front of a collection. -/
def Place.beforeCollection : Place → List Char
  | line => []
  | afterKey => ['\n']

/-- What stands in front of a node of one line. -/
def Place.beforeLeaf : Place → List Char
  | line => []
  | afterKey => [' ']

/-- What stands in front of the first line of a collection at a column. -/
def Place.firstIndentation (column : Nat) : Place → List Char
  | line => []
  | afterKey => indentation column

/-- The column of what belongs to a key, for a key at a column. -/
def Place.inner (column : Nat) : Place → Nat
  | line => column
  | afterKey => column + 2

/-- Where the value of a key is written. -/
def valuePlace (key : String) : Place := if isSimpleKey key then .afterKey else .line

/-- The column for the value of a key at a column. -/
def valueColumn (column : Nat) (key : String) : Nat :=
  if isSimpleKey key then column else column + 2

mutual

/-- A node at a place, with the end of its last line. -/
def writeNode (place : Place) (column : Nat) : Value → List Char
  | .sequence (v :: rest) =>
      place.beforeCollection ++ place.firstIndentation column ++
        '-' :: ' ' :: writeNode .line (column + 2) v ++ writeItems column rest
  | .mapping ((k, v) :: rest) =>
      -- Entries stand further in than their key, items of a sequence do not.
      let column := place.inner column
      place.beforeCollection ++ place.firstIndentation column ++ keyBody column k ++
        writeNode (valuePlace k) (valueColumn column k) v ++ writeEntries column rest
  | v => place.beforeLeaf ++ endLine (leafBody (place.inner column) v)

/-- The items of a sequence, each on lines of its own. -/
def writeItems (column : Nat) : List Value → List Char
  | [] => []
  | v :: rest =>
      indentation column ++ '-' :: ' ' :: writeNode .line (column + 2) v ++ writeItems column rest

/-- The entries of a mapping, each on lines of its own. -/
def writeEntries (column : Nat) : List (String × Value) → List Char
  | [] => []
  | (k, v) :: rest =>
      indentation column ++ keyBody column k ++
        writeNode (valuePlace k) (valueColumn column k) v ++ writeEntries column rest

end

/-- The YAML text of a tree. -/
def write (v : Value) : String :=
  String.ofList (match v with
    | .string s => endLine (textBody 2 s)
    | v => writeNode .line 0 v)

end CanonicalCwl.Yaml
