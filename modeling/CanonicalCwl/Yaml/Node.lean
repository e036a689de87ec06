import CanonicalCwl.Entries
import CanonicalCwl.Yaml.Token.Basic

/-!
# The Nodes of a YAML Document

Tokens make up one tree of nodes. A node may carry a tag and an anchor; an anchor gets a slot,
and an alias refers to the slot that its name has at that point. The slot of a new anchor is
the number of names so far, so that a name that is used again does not count twice.

- `Node.ofTokens?` gives the one document of a list of tokens; two documents are refused.

The readers are given fuel for every token: a node takes at least one, and so does every step
to the next entry of a collection.
-/

namespace CanonicalCwl.Yaml

/-- What stands in front of the content of a node. -/
structure Properties where
  tag : Option String
  slot : Option Nat

/-- A node. -/
inductive Node where
  | aliasTo (slot : Nat)
  | scalar (props : Properties) (text : String) (plain : Bool)
  | sequence (props : Properties) (items : List Node)
  | mapping (props : Properties) (entries : List (Node × Node))

namespace Node

/-- The node of nothing. -/
def empty : Node := scalar ⟨none, none⟩ "" true

/-- What is left to read of a document: its tokens, and the slots of the anchor names so far. -/
structure Remaining where
  tokens : List Token
  slots : Entries Nat

/-- Reading a part of a document. -/
abbrev Reading := StateT Remaining Option

/-- The next token; none at the end. -/
def peek : Reading (Option Token) := do return (← get).tokens.head?

/-- Step over the next token. -/
def skip : Reading Unit := modify fun r => { r with tokens := r.tokens.tail }

/-- Step over the next token if it is this one. -/
def skipIf (t : Token) : Reading Bool := do
  if (← peek) == some t then
    skip
    return true
  else return false

/-- Step over the next token, which has to be this one. -/
def expect (t : Token) : Reading Unit := do
  if !(← skipIf t) then failure

/-- Whether the next token is one of these. -/
def nextIsAmong (ts : List Token) : Reading Bool := do return (← peek).any (ts.contains ·)

/-- Give an anchor name its slot. -/
def anchorSlot (name : String) : Reading Nat := do
  let r ← get
  set { r with slots := Entries.insert r.slots name r.slots.length }
  return r.slots.length

/-- The full form of a tag. -/
def resolveTag (handles : Entries String) (handle suffix : String) : Option String :=
  if handle.isEmpty then some suffix
  else (Entries.get? handles handle).map (· ++ suffix)

/-- Read a tag, if there is one. -/
def readTag (handles : Entries String) : Reading (Option String) := do
  match ← peek with
  | some (.tag handle suffix) =>
      skip
      return some (← resolveTag handles handle suffix)
  | _ => return none

/-- Read the name of an anchor, if there is one. -/
def readAnchor : Reading (Option String) := do
  match ← peek with
  | some (.anchor name) =>
      skip
      return some name
  | _ => return none

/-- Read the anchor and the tag of a node, in either order. -/
def readProperties (handles : Entries String) : Reading Properties := do
  let before ← readAnchor
  let tag ← readTag handles
  let anchor ← if before.isNone && tag.isSome then readAnchor else pure before
  match anchor with
  | some name => return ⟨tag, some (← anchorSlot name)⟩
  | none => return ⟨tag, none⟩

/-- A scalar that is there: the tag that only says so is dropped. -/
def ofScalar (props : Properties) (text : String) (plain : Bool) : Node :=
  scalar { props with tag := props.tag.filter (· != "!") } text plain

mutual

/-- Read a node. `block` allows block collections, and `indentless` a block sequence that is
not indented. -/
def read (handles : Entries String) (block indentless : Bool) : Nat → Reading Node
  | 0 => failure
  | fuel + 1 => do
      match ← peek with
      | some (.aliasTo name) =>
          skip
          return aliasTo (← Entries.get? (← get).slots name)
      | _ =>
          let props ← readProperties handles
          match ← peek with
          | some (.scalar text plain) =>
              skip
              return ofScalar props text plain
          | some .flowSequenceStart =>
              skip
              return sequence props (← readFlowItems handles true fuel)
          | some .flowMappingStart =>
              skip
              return mapping props (← readFlowEntries handles true fuel)
          | some .blockEntry =>
              -- Under a key, entries may stand at the column of the key itself.
              if indentless then return sequence props (← readIndentless handles fuel)
              else bare props
          | some .blockSequenceStart =>
              if block then
                skip
                return sequence props (← readBlockItems handles fuel)
              else bare props
          | some .blockMappingStart =>
              if block then
                skip
                return mapping props (← readBlockEntries handles fuel)
              else bare props
          | _ => bare props
where
  /-- A node that is nothing but its properties. -/
  bare (props : Properties) : Reading Node :=
    if props.tag.isNone && props.slot.isNone then failure else return scalar props "" true

/-- Read a node, or nothing in front of one of the given tokens. -/
def readUnless (handles : Entries String) (stops : List Token) (block indentless : Bool) :
    Nat → Reading Node
  | 0 => failure
  | fuel + 1 => do
      if ← nextIsAmong stops then return empty else read handles block indentless fuel

/-- Read the items of an indented block sequence. -/
def readBlockItems (handles : Entries String) : Nat → Reading (List Node)
  | 0 => failure
  | fuel + 1 => do
      if ← skipIf .blockEnd then return []
      expect .blockEntry
      let item ← readUnless handles [.blockEntry, .blockEnd] true false fuel
      return item :: (← readBlockItems handles fuel)

/-- Read the items of a block sequence that is not indented; whatever is no item ends it. -/
def readIndentless (handles : Entries String) : Nat → Reading (List Node)
  | 0 => failure
  | fuel + 1 => do
      if ← skipIf .blockEntry then
        let item ← readUnless handles [.blockEntry, .key, .value, .blockEnd] true false fuel
        return item :: (← readIndentless handles fuel)
      else return []

/-- Read the entries of a block mapping. -/
def readBlockEntries (handles : Entries String) : Nat → Reading (List (Node × Node))
  | 0 => failure
  | fuel + 1 => do
      if ← skipIf .blockEnd then return []
      expect .key
      let key ← readUnless handles [.key, .value, .blockEnd] true true fuel
      let value ←
        if ← skipIf .value then readUnless handles [.key, .value, .blockEnd] true true fuel
        else pure empty
      return (key, value) :: (← readBlockEntries handles fuel)

/-- Read the items of a sequence in brackets. A key among them makes a mapping of one entry;
one that is empty swallows the token after it. -/
def readFlowItems (handles : Entries String) (first : Bool) : Nat → Reading (List Node)
  | 0 => failure
  | fuel + 1 => do
      if ← skipIf .flowSequenceEnd then return []
      if !first then expect .flowEntry
      if ← skipIf .flowSequenceEnd then return []
      if ← skipIf .key then
        let stops : List Token := [.flowEntry, .flowSequenceEnd]
        let key ←
          if ← nextIsAmong (.value :: stops) then do
            -- The token that ends the empty key is gone, so a value after it is not seen.
            skip
            pure empty
          else read handles false false fuel
        let value ←
          if ← skipIf .value then readUnless handles stops false false fuel else pure empty
        let item := mapping ⟨none, none⟩ [(key, value)]
        return item :: (← readFlowItems handles false fuel)
      else
        let item ← read handles false false fuel
        return item :: (← readFlowItems handles false fuel)

/-- Read the entries of a mapping in brackets. A node that no key announces is a key without a
value. -/
def readFlowEntries (handles : Entries String) (first : Bool) : Nat → Reading (List (Node × Node))
  | 0 => failure
  | fuel + 1 => do
      if ← skipIf .flowMappingEnd then return []
      if !first then expect .flowEntry
      if ← skipIf .flowMappingEnd then return []
      if ← skipIf .key then
        let stops : List Token := [.flowEntry, .flowMappingEnd]
        let key ← readUnless handles (.value :: stops) false false fuel
        let value ←
          if ← skipIf .value then readUnless handles stops false false fuel else pure empty
        return (key, value) :: (← readFlowEntries handles false fuel)
      else
        let key ← read handles false false fuel
        return (key, empty) :: (← readFlowEntries handles false fuel)

end

/-! ## Documents -/

/-- What the directives of a document say. -/
structure Directives where
  hasVersion : Bool
  handles : Entries String

/-- Read the directives of a document; `ds` are those so far. A version or a handle must not
be given twice, and only versions 1.1 and 1.2 are known. -/
def readDirectives (ds : Directives) : List Token → Option (Directives × List Token)
  | .version major minor :: rest =>
      if ds.hasVersion || major != 1 || (minor != 1 && minor != 2) then none
      else readDirectives { ds with hasVersion := true } rest
  | .tagHandle handle meaning :: rest =>
      if Entries.contains ds.handles handle then none
      else readDirectives { ds with handles := ds.handles ++ [(handle, meaning)] } rest
  | tokens => some (ds, tokens)

/-- The handles that every document has unless it defines them. -/
def defaultHandles : Entries String := [("!", "!"), ("!!", "tag:yaml.org,2002:")]

/-- Whether a document has no content in front of this token. -/
def endsDocument : List Token → Bool
  | [] | .version _ _ :: _ | .tagHandle _ _ :: _ | .documentStart :: _ | .documentEnd :: _ => true
  | _ => false

/-- Read the content of a document with its handles; nothing but end markers may follow it. -/
def readContent (handles : Entries String) (tokens : List Token) : Option Node := do
  let (node, r) ← (read handles true false (3 * tokens.length + 3)).run ⟨tokens, []⟩
  if r.tokens.all (· == .documentEnd) then some node else none

/-- The document of a list of tokens. No token at all is a document of nothing. -/
def ofTokens? (tokens : List Token) : Option Node := do
  if tokens.isEmpty then return empty
  let (ds, rest) ← readDirectives ⟨false, []⟩ tokens
  let handles := ds.handles ++ defaultHandles
  match rest with
  | .documentStart :: rest =>
      if endsDocument rest then (if rest.all (· == .documentEnd) then some empty else none)
      else readContent handles rest
  | rest =>
      if ds.hasVersion || !ds.handles.isEmpty then none else readContent handles rest

end Node

end CanonicalCwl.Yaml
