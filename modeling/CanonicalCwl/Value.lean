import CanonicalCwl.Binary64.Basic
import CanonicalCwl.Entries

/-!
# Document Trees

Documents arrive loosely typed: the same field may hold a string, a list or a mapping.
Every rewrite works on this sum of the seven kinds of node, so that each is a total match.

Mappings are ordered entries. The readers never produce a mapping in which a key occurs twice;
`Value.WellFormed` says so for a whole tree.

- `Value.beq_iff_eq`: the structural test `Value.beq` decides equality of trees.
-/

namespace CanonicalCwl

/-- A document tree. -/
inductive Value where
  /-- The absent value. -/
  | null
  /-- A truth value. -/
  | bool (b : Bool)
  /-- A 64-bit integer. -/
  | int (i : Int64)
  /-- A finite number with a fraction part or an exponent, or a large integer. -/
  | float (x : Binary64)
  /-- A text. -/
  | string (s : String)
  /-- A list of trees. -/
  | sequence (items : List Value)
  /-- Keyed trees, in the order they were written. -/
  | mapping (entries : List (String × Value))
  deriving Inhabited

/-- The entries of a mapping node. -/
abbrev Mapping := Entries Value

namespace Value

/-- The word for the kind of a node. -/
def kind : Value → String
  | null => "null"
  | bool _ => "bool"
  | int _ => "int"
  | float _ => "float"
  | string _ => "string"
  | sequence _ => "sequence"
  | mapping _ => "mapping"

/-- The text of a string node. -/
def string? : Value → Option String
  | string s => some s
  | _ => none

/-- The items of a sequence node. -/
def sequence? : Value → Option (List Value)
  | sequence items => some items
  | _ => none

/-- The entries of a mapping node. -/
def mapping? : Value → Option Mapping
  | mapping entries => some entries
  | _ => none

/-- The value under a key; `none` for anything that is not a mapping. -/
def get? : Value → String → Option Value
  | mapping entries, key => Entries.get? entries key
  | _, _ => none

/-- The text under a key, if there is a string node. -/
def text? (v : Value) (key : String) : Option String := (v.get? key).bind string?

/-- Whether the node has no children by its kind. -/
def isScalar : Value → Bool
  | sequence _ | mapping _ => false
  | _ => true

/-- The single-entry mapping `tag: v`, the shape of every tagged alternative. -/
def tagged (tag : String) (v : Value) : Value := mapping [(tag, v)]

/-- A sequence of texts. -/
def strings (xs : List String) : Value := sequence (xs.map string)

/-! ## Equality -/

mutual

/-- Structural equality of two trees. -/
def beq : Value → Value → Bool
  | null, null => true
  | bool a, bool b => a == b
  | int a, int b => a == b
  | float a, float b => a == b
  | string a, string b => a == b
  | sequence a, sequence b => beqItems a b
  | mapping a, mapping b => beqEntries a b
  | _, _ => false

/-- Structural equality of two lists of trees. -/
def beqItems : List Value → List Value → Bool
  | [], [] => true
  | a :: as, b :: bs => beq a b && beqItems as bs
  | _, _ => false

/-- Structural equality of two lists of entries. -/
def beqEntries : List (String × Value) → List (String × Value) → Bool
  | [], [] => true
  | (k, a) :: as, (l, b) :: bs => k == l && beq a b && beqEntries as bs
  | _, _ => false

end

mutual

/-- The structural test decides equality of trees. -/
theorem beq_iff_eq : ∀ a b : Value, beq a b = true ↔ a = b
  | null, b => by cases b <;> simp [beq]
  | bool _, b => by cases b <;> simp [beq]
  | int _, b => by cases b <;> simp [beq]
  | float _, b => by cases b <;> simp [beq]
  | string _, b => by cases b <;> simp [beq]
  | sequence a, b => by
      cases b <;> simp [beq]
      exact beqItems_iff_eq a _
  | mapping a, b => by
      cases b <;> simp [beq]
      exact beqEntries_iff_eq a _

/-- The structural test decides equality of lists of trees. -/
theorem beqItems_iff_eq : ∀ a b : List Value, beqItems a b = true ↔ a = b
  | [], b => by cases b <;> simp [beqItems]
  | a :: as, b => by
      cases b <;> simp [beqItems, beq_iff_eq a, beqItems_iff_eq as]

/-- The structural test decides equality of lists of entries. -/
theorem beqEntries_iff_eq : ∀ a b : List (String × Value), beqEntries a b = true ↔ a = b
  | [], b => by cases b <;> simp [beqEntries]
  | (k, a) :: as, b => by
      cases b <;> simp [beqEntries, Prod.ext_iff, beq_iff_eq a, beqEntries_iff_eq as]

end

instance : DecidableEq Value := fun a b => decidable_of_iff _ (beq_iff_eq a b)

/-! ## Well-formedness -/

mutual

/-- No mapping in the tree has a key twice. -/
def WellFormed : Value → Prop
  | sequence items => WellFormedItems items
  | mapping entries => Entries.Distinct entries ∧ WellFormedEntries entries
  | _ => True

/-- Every tree of a list is well-formed. -/
def WellFormedItems : List Value → Prop
  | [] => True
  | v :: rest => v.WellFormed ∧ WellFormedItems rest

/-- Every value of a list of entries is well-formed. -/
def WellFormedEntries : List (String × Value) → Prop
  | [] => True
  | (_, v) :: rest => v.WellFormed ∧ WellFormedEntries rest

end

/-- A list of trees is well-formed exactly if every one is. -/
theorem wellFormedItems_iff {items : List Value} :
    WellFormedItems items ↔ ∀ v ∈ items, v.WellFormed := by
  induction items with
  | nil => simp [WellFormedItems]
  | cons v rest ih => simp [WellFormedItems, ih]

/-- Entries have well-formed values exactly if every one has. -/
theorem wellFormedEntries_iff {entries : Mapping} :
    WellFormedEntries entries ↔ ∀ e ∈ entries, e.2.WellFormed := by
  induction entries with
  | nil => simp [WellFormedEntries]
  | cons e rest ih => simp [WellFormedEntries, ih]

/-! ## Size -/

/-- What a lookup finds is smaller than the entries. -/
theorem sizeOf_lt_of_entries_get? {entries : Mapping} {key : String} {v : Value}
    (h : Entries.get? entries key = some v) : sizeOf v < sizeOf entries := by
  induction entries with
  | nil => simp at h
  | cons e rest ih =>
    obtain ⟨k, w⟩ := e
    rw [Entries.get?_cons] at h
    split at h
    · cases h
      simp only [List.cons.sizeOf_spec, Prod.mk.sizeOf_spec]
      omega
    · have := ih h
      simp only [List.cons.sizeOf_spec]
      omega

/-- What a lookup finds in a node is smaller than the node. -/
theorem sizeOf_lt_of_get? {v w : Value} {key : String} (h : v.get? key = some w) :
    sizeOf w < sizeOf v := by
  cases v <;> simp only [get?, reduceCtorEq] at h
  have := sizeOf_lt_of_entries_get? h
  simp only [mapping.sizeOf_spec]
  omega

end Value

end CanonicalCwl
