import CanonicalCwl.Yaml.Token.Basic
import CanonicalCwl.Yaml.Token.Scalar

/-!
# Directives, Anchors and Tags in a YAML Text

What is written in front of a node or of a document: the version and the tag handles of a
document, and the anchor and the tag of a node.
-/

namespace CanonicalCwl.Yaml

/-- The number of one to nine digits. -/
def readVersionPart (c : Cursor) : Option (Nat × Cursor) :=
  let (digits, c) := c.takeWhile Char.isDigit
  if digits.isEmpty || 9 < digits.length then none else some (Json.digitsValue digits, c)

/-- Read a tag handle: a mark, a word, and a closing mark. Without a closing mark it is not yet
known to be a handle, except that a directive defines the single mark. -/
def readHandle (inDirective : Bool) (c : Cursor) : Option (List Char × Cursor) :=
  if c.rest.head? != some '!' then none
  else
    let (word, c) := (c.advance 1).takeWhile isWord
    if c.rest.head? == some '!' then some ('!' :: word ++ ['!'], c.advance 1)
    else if inDirective && !word.isEmpty then none
    else some ('!' :: word, c)

/-- The number of octets of a character, by the first one. -/
def octetCount? (n : Nat) : Option Nat :=
  if n < 0x80 then some 1
  else if n < 0xC0 then none
  else if n < 0xE0 then some 2
  else if n < 0xF0 then some 3
  else if n < 0xF8 then some 4
  else none

/-- The octet that an escape in a tag stands for. -/
def readOctet : List Char → Option (Nat × List Char)
  | '%' :: a :: b :: rest => do return ((← Json.hexValue? a) * 16 + (← Json.hexValue? b), rest)
  | _ => none

/-- Read the further octets of an escaped character. -/
def readOctets : Nat → Nat → List Char → Option (Nat × List Char)
  | 0, acc, cs => some (acc, cs)
  | n + 1, acc, cs => do
      let (o, rest) ← readOctet cs
      if 0x80 ≤ o && o < 0xC0 then readOctets n (acc * 0x40 + (o - 0x80)) rest else none

/-- Read an escaped character of a tag. -/
def readTagEscape (cs : List Char) : Option (Char × List Char) := do
  let (o, rest) ← readOctet cs
  let n ← octetCount? o
  let lead := if n = 1 then o else o % 2 ^ (7 - n)
  let (code, rest) ← readOctets (n - 1) lead rest
  return (← scalarChar? code, rest)

/-- The characters of a tag. Inside angle brackets and directives there are three more. -/
def isTagChar (verbatim : Bool) (c : Char) : Bool :=
  isWord c || ";/?:@&=+$.%!~*'()".toList.contains c || (verbatim && ",[]".toList.contains c)

/-- Read the characters of a tag, at most `fuel` of them. -/
def readTagChars (verbatim : Bool) : Nat → Cursor → Option (List Char × Cursor)
  | 0, c => some ([], c)
  | fuel + 1, c =>
      match c.rest with
      | [] => some ([], c)
      | d :: _ =>
          if !isTagChar verbatim d then some ([], c)
          else if d == '%' then do
            let (e, rest) ← readTagEscape c.rest
            let (more, c) ← readTagChars verbatim fuel (c.advance (c.rest.length - rest.length))
            return (e :: more, c)
          else do
            let (more, c) ← readTagChars verbatim fuel (c.advance 1)
            return (d :: more, c)

/-- Read the characters of a tag, of which there has to be one. -/
def readTagText (verbatim : Bool) (c : Cursor) : Option (List Char × Cursor) := do
  let (text, c) ← readTagChars verbatim c.rest.length c
  if text.isEmpty then none else return (text, c)

/-- Read a tag in angle brackets. -/
def readVerbatimTag (c : Cursor) : Option (Token × Cursor) := do
  let (uri, c) ← readTagText true (c.advance 2)
  if c.rest.head? != some '>' then none
  return (.tag "" (String.ofList uri), c.advance 1)

/-- Read a tag with a handle. A lone mark is a tag that stands for itself. -/
def readShortTag (c : Cursor) : Option (Token × Cursor) := do
  let (handle, c) ← readHandle false c
  if handle.length ≠ 1 && handle.getLast? == some '!' then
    let (suffix, c) ← readTagText false c
    return (.tag (String.ofList handle) (String.ofList suffix), c)
  else
    let (more, c) ← readTagChars false c.rest.length c
    match handle.drop 1 ++ more with
    | [] => return (.tag "" "!", c)
    | suffix => return (.tag "!" (String.ofList suffix), c)

/-- Read a tag at its mark. -/
def readTag (flow : Bool) (c : Cursor) : Option (Token × Cursor) := do
  let (token, c) ← if c.rest.take 2 == ['!', '<'] then readVerbatimTag c else readShortTag c
  if atGap c.rest || (flow && c.rest.head? == some ',') then return (token, c) else none

/-- Read the name of an anchor or of an alias after its mark. -/
def readAnchorName (c : Cursor) : Option (String × Cursor) :=
  let (name, c) := (c.advance 1).takeWhile isWord
  if name.isEmpty then none
  else if atGap c.rest || c.rest.head?.any ("?:,]\x7d%@\x60".toList.contains ·) then
    some (String.ofList name, c)
  else none

/-- Read the rest of a version directive. -/
def readVersion (c : Cursor) : Option (Token × Cursor) := do
  let (major, c) ← readVersionPart (c.dropWhile isBlank)
  if c.rest.head? != some '.' then none
  let (minor, c) ← readVersionPart (c.advance 1)
  return (.version major minor, c)

/-- Read the rest of a directive that defines a tag handle. -/
def readHandleMeaning (c : Cursor) : Option (Token × Cursor) := do
  let (handle, c) ← readHandle true (c.dropWhile isBlank)
  if !c.rest.head?.any isBlank then none
  let (meaning, c) ← readTagText true (c.dropWhile isBlank)
  if !atGap c.rest then none
  return (.tagHandle (String.ofList handle) (String.ofList meaning), c)

/-- Read a directive, with its line. -/
def readDirective (c : Cursor) : Option (Token × Cursor) := do
  let (name, c) := (c.advance 1).takeWhile isWord
  if !atGap c.rest then none
  let (token, c) ← match String.ofList name with
    | "YAML" => readVersion c
    | "TAG" => readHandleMeaning c
    | _ => none
  let c := (c.dropWhile isBlank).skipComment
  if !atLineEnd c.rest then none
  match c.lineBreak? with
  | some (_, c) => return (token, c)
  | none => return (token, c)

end CanonicalCwl.Yaml
