import CanonicalCwl.Value
import CanonicalCwl.Yaml.Node
import CanonicalCwl.Yaml.Plain
import CanonicalCwl.Yaml.Token.Scan

/-!
# Reading a YAML Text as a Tree

The tree of the one document of a text. Anchors and aliases expand, a key is the text of its
scalar, and a repeated key keeps its first position and takes the last value. A tag of the
standard decides what a scalar is; a local tag is refused.

- `Yaml.read` reads a text.
-/

namespace CanonicalCwl.Yaml

/-! ## Scalars -/

/-- The float that stands for an integer too large for 64 bits with a sign. -/
def largeInteger (n : Int) : Value := .float ((Binary64.ofRatio false n.toNat 1).getD (.zero false))

/-- The value of an integer of at most 64 bits; a larger one is refused. -/
def integerValue (n : Int) : Option Value :=
  if -2 ^ 63 ≤ n ∧ n < 2 ^ 63 then some (.int (Int64.ofInt n))
  else if 0 ≤ n ∧ n < 2 ^ 64 then some (largeInteger n)
  else none

/-- The value of a plain scalar. -/
def plainValue (s : String) : Option Value :=
  match Plain.meaning s with
  | .null | .unbounded => some .null
  | .bool b => some (.bool b)
  | .int n => integerValue n
  | .float x => some (.float x)
  | .text => some (.string s)

/-- The value of a scalar that is tagged as a float. -/
def floatValue (s : String) : Option Value :=
  match Plain.float? s.toList with
  | some x => some (.float x)
  | none => if s ∈ Plain.unboundedWords then some .null else none

/-- Whether a tag is a local one. -/
def isLocalTag (tag : String) : Bool := tag.toList.head? == some '!'

/-- The value of a scalar. Any other tag than those of the simple values makes it a text. -/
def scalarValue (tag : Option String) (s : String) (plain : Bool) : Option Value :=
  match tag with
  | none => if plain then plainValue s else some (.string s)
  | some "tag:yaml.org,2002:bool" => (Plain.boolWord? s).map .bool
  | some "tag:yaml.org,2002:int" =>
      ((Plain.integer? s.toList).filter Plain.fits128).bind integerValue
  | some "tag:yaml.org,2002:float" => floatValue s
  | some "tag:yaml.org,2002:null" => if s ∈ Plain.nullWords then some .null else none
  | some tag => if isLocalTag tag then none else some (.string s)

/-! ## Aliases -/

namespace Node

mutual

/-- The number of events that make up a node: one for a scalar, two around a collection. -/
def events : Node → Nat
  | .aliasTo _ | .scalar _ _ _ => 1
  | .sequence _ items => eventsOfItems items + 2
  | .mapping _ entries => eventsOfEntries entries + 2

/-- The number of events of a list of nodes. -/
def eventsOfItems : List Node → Nat
  | [] => 0
  | n :: rest => n.events + eventsOfItems rest

/-- The number of events of a list of entries. -/
def eventsOfEntries : List (Node × Node) → Nat
  | [] => 0
  | (k, v) :: rest => k.events + v.events + eventsOfEntries rest

end

/-- The slot of an anchored node. -/
def ownSlot (node : Node) (props : Properties) : List (Nat × Node) :=
  props.slot.toList.map fun s => (s, node)

mutual

/-- The anchored nodes, by slot, in the order in which they begin. -/
def anchored : Node → List (Nat × Node)
  | .aliasTo _ => []
  | .scalar props text plain => ownSlot (.scalar props text plain) props
  | .sequence props items => ownSlot (.sequence props items) props ++ anchoredItems items
  | .mapping props entries => ownSlot (.mapping props entries) props ++ anchoredEntries entries

/-- The anchored nodes of a list of nodes. -/
def anchoredItems : List Node → List (Nat × Node)
  | [] => []
  | n :: rest => n.anchored ++ anchoredItems rest

/-- The anchored nodes of a list of entries. -/
def anchoredEntries : List (Node × Node) → List (Nat × Node)
  | [] => []
  | (k, v) :: rest => k.anchored ++ v.anchored ++ anchoredEntries rest

end

end Node

/-! ## Trees -/

/-- Building a tree with a number of aliases that may still be followed. -/
abbrev Building := StateT Nat Option

/-- The anchored nodes of a document, the last one of a slot first. -/
abbrev Slots := List (Nat × Node)

/-- The node itself, or the one that an alias stands for. -/
def follow (slots : Slots) : Node → Building Node
  | .aliasTo slot => do
      -- A node may hold an alias to itself; the allowance and the depth bound end that.
      let left ← get
      if left = 0 then failure
      set (left - 1)
      slots.lookup slot
  | node => return node

/-- The text of a key, which has to be a scalar. -/
def keyText (slots : Slots) (key : Node) : Building String := do
  match ← follow slots key with
  | .scalar _ text _ => return text
  | _ => failure

/-- Refuse a collection with a local tag. -/
def refuseLocalTag (props : Properties) : Building Unit := do
  if props.tag.any isLocalTag then failure

/-- The tree of a node that is nested at most `depth` collections deep. -/
def build (slots : Slots) : Nat → Node → Building Value
  | depth, node => do
      match depth, ← follow slots node with
      | _, .scalar props text plain => scalarValue props.tag text plain
      | depth + 1, .sequence props items =>
          refuseLocalTag props
          return .sequence (← items.mapM (build slots depth))
      | depth + 1, .mapping props entries =>
          refuseLocalTag props
          let entries ← entries.mapM fun (k, v) => do
            let key ← keyText slots k
            return (key, ← build slots depth v)
          return .mapping (Entries.ofList entries)
      | _, _ => failure

/-- How deep a document may be nested. -/
def maxDepth : Nat := 128

/-- How many aliases may be followed for every event of a document. -/
def aliasesPerEvent : Nat := 100

/-- Read a whole text as one tree. -/
def read (text : String) : Option Value := do
  let node ← Node.ofTokens? (← Token.ofText? text)
  let slots := node.anchored.reverse
  return (← (build slots maxDepth node).run (aliasesPerEvent * node.events)).1

end CanonicalCwl.Yaml
