import CanonicalCwl.Json.Reader
import CanonicalCwl.Yaml.Cursor

/-!
# Scalars in a YAML Text

The three notations of scalars: plain, quoted and block. Line breaks inside plain and quoted
scalars are folded: a single one becomes a space, and of several the first one is dropped. A
block scalar keeps its breaks (literal) or folds them (folded).

The readers are given fuel for every character left.
-/

namespace CanonicalCwl.Yaml

/-! ## Gaps -/

/-- The text that line breaks fold to. Only a first break that counts as a line feed folds. -/
def foldBreaks (first : Char) (more : List Char) : List Char :=
  if first == '\n' then (if more.isEmpty then [' '] else more) else first :: more

/-- Step over blanks and line breaks at the beginning of a line; the breaks are kept. A tab
must not stand in front of column `indent`. -/
def furtherBreaks (indent : Nat) : Nat → Cursor → Option (List Char × Cursor)
  | 0, c => some ([], c)
  | fuel + 1, c =>
      match c.lineBreak? with
      | some (b, c) => do
          let (more, c) ← furtherBreaks indent fuel c
          return (b :: more, c)
      | none =>
          match c.rest with
          | ' ' :: _ => furtherBreaks indent fuel (c.advance 1)
          | '\t' :: _ =>
              if c.column < indent then none else furtherBreaks indent fuel (c.advance 1)
          | _ => some ([], c)

/-- What stands between two words of a scalar. -/
structure Gap where
  text : List Char
  /-- Whether a line ends in the gap. -/
  broken : Bool

/-- Step over the blanks and line breaks between two words. -/
def readGap (indent fuel : Nat) (c : Cursor) : Option (Gap × Cursor) :=
  let (blanks, c) := c.takeWhile isBlank
  match c.lineBreak? with
  | none => some (⟨blanks, false⟩, c)
  | some (b, c) => do
      let (more, c) ← furtherBreaks indent fuel c
      return (⟨foldBreaks b more, true⟩, c)

/-! ## Plain scalars -/

/-- The characters that end a plain scalar inside brackets. -/
def endsFlowScalar (c : Char) : Bool :=
  c == ',' || c == '[' || c == ']' || c == '\x7b' || c == '\x7d'

/-- The word of a plain scalar. Inside brackets a colon must not touch an indicator. -/
def plainWord (flow : Bool) : List Char → Option (List Char)
  | [] => some []
  | c :: rest =>
      if isBlank c || isBreak c then some []
      else if flow && c == ':' && rest.head?.any (fun d => endsFlowScalar d || d == '?') then none
      else if (c == ':' && atGap rest) || (flow && endsFlowScalar c) then some []
      else (plainWord flow rest).map (c :: ·)

/-- A plain scalar that was read: its text, what follows it, and whether a line ends between
the two. -/
structure PlainScalar where
  text : List Char
  rest : Cursor
  broken : Bool

/-- Read the words of a plain scalar. `pending` is the gap in front of the next word. -/
def readPlain (flow : Bool) (indent : Nat) : Nat → Gap → Cursor → Option PlainScalar
  | 0, _, _ => none
  | fuel + 1, pending, c =>
      -- A word is never followed by a hash at once, so this one begins a comment.
      if c.atDocumentMarker || c.rest.head? == some '#' then some ⟨[], c, pending.broken⟩
      else do
        let word ← plainWord flow c.rest
        if word.isEmpty then return ⟨[], c, pending.broken⟩
        let text := pending.text ++ word
        let c := c.advance word.length
        if c.rest.isEmpty || !atGap c.rest then return ⟨text, c, false⟩
        let (gap, c) ← readGap indent fuel c
        -- The next line is not indented enough to go on with the scalar.
        if !flow && c.column < indent then return ⟨text, c, gap.broken⟩
        let more ← readPlain flow indent fuel gap c
        return { more with text := text ++ more.text }

/-! ## Quoted scalars -/

/-- The character that a one-letter escape stands for. -/
def escapeMeaning? : Char → Option Char
  | '0' => some '\x00'
  | 'a' => some '\x07'
  | 'b' => some '\x08'
  | 't' | '\t' => some '\t'
  | 'n' => some '\n'
  | 'v' => some '\x0b'
  | 'f' => some '\x0c'
  | 'r' => some '\r'
  | 'e' => some '\x1b'
  | ' ' => some ' '
  | '"' => some '"'
  | '/' => some '/'
  | '\\' => some '\\'
  | 'N' => some '\u0085'
  | '_' => some '\u00a0'
  | 'L' => some '\u2028'
  | 'P' => some '\u2029'
  | _ => none

/-- The number of digits after the letter of a numeric escape. -/
def escapeDigits? : Char → Option Nat
  | 'x' => some 2
  | 'u' => some 4
  | 'U' => some 8
  | _ => none

/-- The character with a code point, unless it is a surrogate or too large. -/
def scalarChar? (n : Nat) : Option Char :=
  if (0xD800 ≤ n && n ≤ 0xDFFF) || 0x10FFFF < n then none else some (Char.ofNat n)

/-- The number that exactly `n` hexadecimal digits write. -/
def hexNumber? (n : Nat) (cs : List Char) : Option Nat :=
  let digits := cs.take n
  if digits.length < n then none
  else digits.foldlM (fun acc c => (Json.hexValue? c).map (acc * 16 + ·)) 0

/-- Read an escape after its backslash: the character and the number of characters read. -/
def readEscape : List Char → Option (Char × Nat)
  | [] => none
  | c :: rest =>
      match escapeMeaning? c, escapeDigits? c with
      | some e, _ => some (e, 1)
      | none, some n => do
          let e ← scalarChar? (← hexNumber? n rest)
          return (e, n + 1)
      | none, none => none

/-- A word of a quoted scalar: its text, what follows, and whether an escaped line break ends
it. -/
structure QuotedWord where
  text : List Char
  rest : Cursor
  escapedBreak : Bool

/-- Read a word up to a blank, a line break or the closing quote. -/
def readQuotedWord (double : Bool) : Nat → Cursor → Option QuotedWord
  | 0, c => some ⟨[], c, false⟩
  | fuel + 1, c =>
      let more (chars : List Char) (n : Nat) : Option QuotedWord := do
        let word ← readQuotedWord double fuel (c.advance n)
        return { word with text := chars ++ word.text }
      if atGap c.rest then some ⟨[], c, false⟩
      else
        match double, c.rest with
        | false, '\'' :: '\'' :: _ => more ['\''] 2
        | false, '\'' :: _ => some ⟨[], c, false⟩
        | true, '"' :: _ => some ⟨[], c, false⟩
        | true, '\\' :: rest =>
            match (c.advance 1).lineBreak? with
            | some (_, c) => some ⟨[], c, true⟩
            | none => do
                let (e, n) ← readEscape rest
                more [e] (n + 1)
        | _, d :: _ => more [d] 1
        | _, [] => some ⟨[], c, false⟩

/-- Read a quoted scalar after its opening quote. An escaped line break leaves nothing but the
breaks that follow it. -/
def readQuoted (double : Bool) : Nat → Cursor → Option (List Char × Cursor)
  | 0, _ => none
  | fuel + 1, c =>
      if c.atDocumentMarker || c.rest.isEmpty then none
      else do
        let word ← readQuotedWord double fuel c
        let c := word.rest
        if c.rest.head? == some (if double then '"' else '\'') then
          return (word.text, c.advance 1)
        let (gap, c) ←
          if word.escapedBreak then furtherBreaks 0 fuel c
          else (readGap 0 fuel c).map fun (g, c) => (g.text, c)
        let (more, c) ← readQuoted double fuel c
        return (word.text ++ gap ++ more, c)

/-! ## Block scalars -/

/-- What becomes of the line breaks at the end of a block scalar. -/
inductive Chomping where
  /-- All of them are dropped. -/
  | strip
  /-- The first one is kept. -/
  | clip
  /-- All of them are kept. -/
  | keep
  deriving DecidableEq

/-- The header of a block scalar: its chomping and its indentation, if that is written. -/
structure BlockHeader where
  chomping : Chomping
  indentation : Option Nat

/-- Read a chomping indicator. -/
def readChomping : List Char → Option (Chomping × List Char)
  | '+' :: rest => some (.keep, rest)
  | '-' :: rest => some (.strip, rest)
  | _ => none

/-- Read an indentation indicator, a digit that is not zero; `none` outside for a zero. -/
def readIndentation : List Char → Option (Option Nat × List Char)
  | c :: rest =>
      if c == '0' then none
      else if c.isDigit then some (some (c.toNat - '0'.toNat), rest)
      else some (none, c :: rest)
  | [] => some (none, [])

/-- Read the indicators of a block scalar, in either order. -/
def readIndicators (cs : List Char) : Option (BlockHeader × List Char) :=
  match readChomping cs with
  | some (chomping, rest) => do
      let (indentation, rest) ← readIndentation rest
      return (⟨chomping, indentation⟩, rest)
  | none => do
      let (indentation, rest) ← readIndentation cs
      match indentation, readChomping rest with
      | some n, some (chomping, rest) => return (⟨chomping, some n⟩, rest)
      | indentation, _ => return (⟨.clip, indentation⟩, rest)

/-- Step over the empty lines of a block scalar, up to column `indent` of a line that is not
empty, or up to its first character if the indentation is not known yet. The breaks are kept,
and so is the widest indentation seen. -/
def emptyLines (indent : Option Nat) : Nat → Nat → Cursor → Option (List Char × Nat × Cursor)
  | 0, widest, c => some ([], widest, c)
  | fuel + 1, widest, c =>
      let spaces := (c.rest.takeWhile (· == ' ')).length
      let c := c.advance (match indent with
        | some n => min spaces (n - c.column)
        | none => spaces)
      let widest := max widest c.column
      if c.rest.head? == some '\t' && indent.all (c.column < ·) then none
      else
        match c.lineBreak? with
        | some (b, c) => do
            let (more, widest, c) ← emptyLines indent fuel widest c
            return (b :: more, widest, c)
        | none => some ([], widest, c)

/-- The parts of a block scalar that are still open at the end of a line. -/
structure BlockTail where
  /-- The break of the last line with text. -/
  lineBreak : List Char
  /-- The breaks of the empty lines after it. -/
  emptyBreaks : List Char
  /-- Whether that line began with a blank. -/
  indented : Bool

/-- The text between two lines. Folding joins lines that both begin without a blank. -/
def BlockTail.join (tail : BlockTail) (literal nextIndented : Bool) : List Char :=
  if !literal && tail.lineBreak == ['\n'] && !tail.indented && !nextIndented then
    (if tail.emptyBreaks.isEmpty then [' '] else tail.emptyBreaks)
  else tail.lineBreak ++ tail.emptyBreaks

/-- Read the lines of a block scalar. -/
def readBlockLines (literal : Bool) (indent : Nat) :
    Nat → BlockTail → Cursor → Option (List Char × BlockTail × Cursor)
  | 0, _, _ => none
  | fuel + 1, tail, c =>
      if c.column != indent || c.rest.isEmpty then some ([], tail, c)
      else do
        let indented := c.rest.head?.any isBlank
        let (line, c) := c.takeWhile (!isBreak ·)
        let (lineBreak, c) := match c.lineBreak? with
          | some (b, c) => ([b], c)
          | none => ([], c)
        let (emptyBreaks, _, c) ← emptyLines (some indent) fuel 0 c
        let (more, last, c) ←
          readBlockLines literal indent fuel ⟨lineBreak, emptyBreaks, indented⟩ c
        return (tail.join literal indented ++ line ++ more, last, c)

/-- Read a block scalar after its first indicator. `parent` is the indentation of the block it
stands in, plus one. -/
def readBlock (literal : Bool) (parent fuel : Nat) (c : Cursor) :
    Option (List Char × Cursor) := do
  let (header, rest) ← readIndicators c.rest
  let c := c.advance (c.rest.length - rest.length)
  let c := (c.dropWhile isBlank).skipComment
  if !atLineEnd c.rest then none
  let c := match c.lineBreak? with
    | some (_, c) => c
    | none => c
  -- An indentation that is not written is that of the first line with text, but at least that
  -- of the block around it and one more column.
  let known := header.indentation.map (parent - 1 + ·)
  let (breaks, widest, c) ← emptyLines known fuel 0 c
  let indent := known.getD (max 1 (max widest parent))
  let (text, tail, c) ← readBlockLines literal indent fuel ⟨[], breaks, false⟩ c
  let ending := match header.chomping with
    | .strip => []
    | .clip => tail.lineBreak
    | .keep => tail.lineBreak ++ tail.emptyBreaks
  return (text ++ ending, c)

end CanonicalCwl.Yaml
