import CanonicalCwl.Yaml.Token.Property

/-!
# The Tokens of a YAML Text

A text is read token by token. A colon may turn what stands before it on the same line into a
key: every place where a key may begin is remembered, and its tokens are put in when the colon
is met. Indentation outside of brackets begins and ends block collections.

- `Token.ofText?` gives the tokens of a text, or nothing if it has none.
-/

namespace CanonicalCwl.Yaml

/-- A place where a key may have begun. -/
structure PendingKey where
  /-- Whether a key is the only thing that may begin there. -/
  required : Bool
  /-- The number of tokens before the place. -/
  tokens : Nat
  place : Cursor

/-- What has been read of a text. -/
structure Lexer where
  place : Cursor
  /-- The indentation of the innermost block collection; `-1` outside of all. -/
  indent : Int
  /-- The indentations of the collections around it. -/
  outerIndents : List Int
  /-- The pending key of the innermost bracket. -/
  pending : Option PendingKey
  /-- The pending keys of the brackets around it. -/
  outerPending : List (Option PendingKey)
  /-- Whether a key may begin here. -/
  keyAllowed : Bool
  /-- The tokens so far. -/
  tokens : Array Token

namespace Lexer

/-- Nothing has been read of a text. -/
def start (text : List Char) : Lexer := ⟨.start text, -1, [], none, [], true, #[]⟩

/-- Whether the place is inside brackets. -/
def inFlow (l : Lexer) : Bool := !l.outerPending.isEmpty

/-- The place as an indentation. -/
def column (l : Lexer) : Int := l.place.column

/-- Put a token at the end. -/
def push (l : Lexer) (t : Token) : Lexer := { l with tokens := l.tokens.push t }

/-- Put a token in after the first `n` tokens. -/
def insertAt (l : Lexer) (n : Nat) (t : Token) : Lexer :=
  { l with tokens := l.tokens.insertIdxIfInBounds n t }

/-- Step over `n` characters and put a token at the end. -/
def take (l : Lexer) (n : Nat) (t : Token) : Lexer :=
  { l.push t with place := l.place.advance n }

/-- Say whether a key may begin next. -/
def allowKey (l : Lexer) (allowed : Bool) : Lexer := { l with keyAllowed := allowed }

/-! ## Keys -/

/-- Forget the pending key; a required one cannot be forgotten. -/
def dropKey (l : Lexer) : Option Lexer :=
  match l.pending with
  | some k => if k.required then none else some { l with pending := none }
  | none => some l

/-- Remember the place if a key may begin here. -/
def saveKey (l : Lexer) : Option Lexer :=
  if l.keyAllowed then do
    let required := !l.inFlow && l.indent == l.column
    let l ← l.dropKey
    return { l with pending := some ⟨required, l.tokens.size, l.place⟩ }
  else some l

/-- Whether a pending key has come too far: a key ends on its line, within 1024 characters. -/
def PendingKey.stale (k : PendingKey) (place : Cursor) : Bool :=
  k.place.line < place.line || k.place.index + 1024 < place.index

/-- Forget a key that has come too far. -/
def freshKey (place : Cursor) : Option PendingKey → Option (Option PendingKey)
  | some k =>
      if PendingKey.stale k place then (if k.required then none else some none) else some (some k)
  | none => some none

/-- Forget the keys that have come too far. -/
def dropStaleKeys (l : Lexer) : Option Lexer := do
  let outer ← l.outerPending.mapM (freshKey l.place)
  let pending ← freshKey l.place l.pending
  return { l with pending := pending, outerPending := outer }

/-! ## Indentation -/

/-- Begin a block collection at a column, if that is further in; its token goes after the
first `n` tokens. -/
def indentTo (l : Lexer) (column : Int) (n : Nat) (t : Token) : Lexer :=
  if !l.inFlow && l.indent < column then
    { l.insertAt n t with indent := column, outerIndents := l.indent :: l.outerIndents }
  else l

/-- End the block collections further in than a column; `indents` are those around. -/
def closeBlocks (column indent : Int) (tokens : Array Token) :
    List Int → Int × List Int × Array Token
  | [] => (indent, [], tokens)
  | outer :: rest =>
      if column < indent then closeBlocks column outer (tokens.push .blockEnd) rest
      else (indent, outer :: rest, tokens)

/-- End the block collections further in than a column. -/
def dedentTo (l : Lexer) (column : Int) : Lexer :=
  if l.inFlow then l
  else
    let (indent, outer, tokens) := closeBlocks column l.indent l.tokens l.outerIndents
    { l with indent := indent, outerIndents := outer, tokens := tokens }

/-! ## Blanks between tokens -/

/-- Step over blanks, comments and line breaks. A tab counts as a blank only where no block
collection can begin. -/
def skipBlanks : Nat → Lexer → Lexer
  | 0, l => l
  | fuel + 1, l =>
      let place := if l.place.column == 0 && l.place.rest.head? == some byteOrderMark then
        l.place.advance 1 else l.place
      let tabs := l.inFlow || !l.keyAllowed
      let place := (place.dropWhile fun c => c == ' ' || (tabs && c == '\t')).skipComment
      match place.lineBreak? with
      | some (_, place) =>
          -- Outside of brackets a key may begin on every new line.
          skipBlanks fuel { l with place, keyAllowed := l.keyAllowed || !l.inFlow }
      | none => { l with place }

/-! ## Tokens -/

/-- A directive, or the marker of a document: no block goes on and no key can follow. -/
def atMargin (l : Lexer) : Option Lexer := do
  let l ← (l.dedentTo (-1)).dropKey
  return l.allowKey false

/-- A directive. -/
def directive (l : Lexer) : Option Lexer := do
  let l ← l.atMargin
  let (t, place) ← readDirective l.place
  return { l.push t with place }

/-- The marker of a document. -/
def documentMarker (l : Lexer) (t : Token) : Option Lexer := do
  let l ← l.atMargin
  return l.take 3 t

/-- An opening bracket. -/
def openBracket (l : Lexer) (t : Token) : Option Lexer := do
  let l ← l.saveKey
  let l := { l with pending := none, outerPending := l.pending :: l.outerPending }
  return (l.allowKey true).take 1 t

/-- A closing bracket. -/
def closeBracket (l : Lexer) (t : Token) : Option Lexer := do
  let l ← l.dropKey
  -- A bracket that closes nothing is left to the reader of the tokens.
  let l := match l.outerPending with
    | k :: outer => { l with pending := k, outerPending := outer }
    | [] => l
  return (l.allowKey false).take 1 t

/-- A comma inside brackets. -/
def flowEntry (l : Lexer) : Option Lexer := do
  let l ← l.dropKey
  return (l.allowKey true).take 1 .flowEntry

/-- An indicator that begins a block collection: of entries or of keys. -/
def beginBlock (l : Lexer) (t : Token) : Option Lexer :=
  if l.inFlow then some l
  else if l.keyAllowed then some (l.indentTo l.column l.tokens.size t)
  else none

/-- The indicator of an entry of a block sequence. -/
def blockEntry (l : Lexer) : Option Lexer := do
  let l ← (← l.beginBlock .blockSequenceStart).dropKey
  return (l.allowKey true).take 1 .blockEntry

/-- The indicator of a key. -/
def keyIndicator (l : Lexer) : Option Lexer := do
  let l ← (← l.beginBlock .blockMappingStart).dropKey
  return (l.allowKey !l.inFlow).take 1 .key

/-- The indicator of a value. What the pending key remembers becomes a key; without one the
key is empty. -/
def valueIndicator (l : Lexer) : Option Lexer :=
  match l.pending with
  | some k =>
      -- The mapping begins where the key does, so its token goes in front of that of the key.
      let l := { l.insertAt k.tokens .key with pending := none }
      let l := l.indentTo k.place.column k.tokens .blockMappingStart
      some ((l.allowKey false).take 1 .value)
  | none => do
      let l ← l.beginBlock .blockMappingStart
      return (l.allowKey !l.inFlow).take 1 .value

/-- Something that a node begins with; it may be a key. -/
def nodePart (l : Lexer) (part : Option (Token × Cursor)) : Option Lexer := do
  let l ← l.saveKey
  let (t, place) ← part
  return { (l.allowKey false).push t with place }

/-- A scalar of some notation as a part of a node. -/
def scalarPart (plain : Bool) (s : List Char × Cursor) : Token × Cursor :=
  (.scalar (String.ofList s.1) plain, s.2)

/-- A quoted scalar. -/
def quotedScalar (l : Lexer) (double : Bool) (fuel : Nat) : Option Lexer :=
  l.nodePart ((readQuoted double fuel (l.place.advance 1)).map (scalarPart false))

/-- A block scalar. A key may begin on the line after it. -/
def blockScalar (l : Lexer) (literal : Bool) (fuel : Nat) : Option Lexer := do
  let l ← l.dropKey
  let (text, place) ← readBlock literal (l.indent + 1).toNat fuel (l.place.advance 1)
  return { (l.allowKey true).push (.scalar (String.ofList text) false) with place }

/-- A plain scalar. A key may begin after it only on a line of its own. -/
def plainScalar (l : Lexer) (fuel : Nat) : Option Lexer := do
  let l ← l.saveKey
  let s ← readPlain l.inFlow (l.indent + 1).toNat fuel ⟨[], false⟩ l.place
  return { (l.allowKey s.broken).push (.scalar (String.ofList s.text) true) with place := s.rest }

/-- Characters that no plain scalar begins with. -/
def isIndicator (c : Char) : Bool := "-?:,[]\x7b\x7d#&*!|>'\"%@\x60".toList.contains c

/-- Whether a plain scalar may begin here. -/
def beginsPlain (flow : Bool) : List Char → Bool
  | c :: rest =>
      !(isBlank c || isBreak c || isIndicator c) ||
        (c == '-' && !rest.head?.any isBlank) ||
        (!flow && (c == '?' || c == ':') && !atGap rest)
  | [] => false

/-- Read the token that the next character begins. -/
def fetchAt (l : Lexer) (fuel : Nat) (c : Char) (rest : List Char) : Option Lexer :=
  if l.place.column == 0 && c == '%' then l.directive
  else if l.place.atMarker '-' then l.documentMarker .documentStart
  else if l.place.atMarker '.' then l.documentMarker .documentEnd
  else
    match c with
    | '[' => l.openBracket .flowSequenceStart
    | '\x7b' => l.openBracket .flowMappingStart
    | ']' => l.closeBracket .flowSequenceEnd
    | '\x7d' => l.closeBracket .flowMappingEnd
    | ',' => l.flowEntry
    | '*' => l.nodePart ((readAnchorName l.place).map fun (n, place) => (.aliasTo n, place))
    | '&' => l.nodePart ((readAnchorName l.place).map fun (n, place) => (.anchor n, place))
    | '!' => l.nodePart (readTag l.inFlow l.place)
    | '\'' => l.quotedScalar false fuel
    | '"' => l.quotedScalar true fuel
    | c =>
        if c == '-' && atGap rest then l.blockEntry
        else if c == '?' && (l.inFlow || atGap rest) then l.keyIndicator
        else if c == ':' && (l.inFlow || atGap rest) then l.valueIndicator
        else if c == '|' && !l.inFlow then l.blockScalar true fuel
        else if c == '>' && !l.inFlow then l.blockScalar false fuel
        else if beginsPlain l.inFlow (c :: rest) then l.plainScalar fuel
        else none

/-- The end of the text. -/
def finish (l : Lexer) : Option Lexer := (l.dedentTo (-1)).dropKey

/-- Read the remaining tokens; every token takes at least one character, so that the fuel that
is left covers what is left of the text. -/
def run : Nat → Lexer → Option (List Token)
  | 0, _ => none
  | fuel + 1, l => do
      -- Blocks end at the column of the next token, whatever that is.
      let l ← (l.skipBlanks fuel).dropStaleKeys
      let l := l.dedentTo l.column
      match l.place.rest with
      | [] => return (← l.finish).tokens.toList
      | c :: rest => run fuel (← l.fetchAt fuel c rest)

end Lexer

/-- The tokens of a text. -/
def Token.ofText? (text : String) : Option (List Token) :=
  let cs := text.toList
  if cs.all isAllowed then (Lexer.start cs).run (cs.length + 2) else none

end CanonicalCwl.Yaml
