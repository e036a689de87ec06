import CanonicalCwl.TypeExpr.Notation
import CanonicalCwl.TypeExpr.Tree

/-!
# Rewrites of Raw Documents

The class-independent rewrites that take a raw document towards its canonical form. Each one
rewrites the values of a mapping key by key; the keys and their order stay.

- `dictToList` turns an id-keyed map into a list of entries with an `id`.
- `forceList` wraps a value that is not a list.
- `tagType` turns the notation of a type into its tagged tree.
- `coerceDefault` tags a default by its kind.
-/

namespace CanonicalCwl.Rewrite

/-- The list entry of a keyed entry: the key becomes its `id`, in front. An entry that is not
a mapping becomes the value of the field `tag`. -/
def keyedEntry (tag id : String) : Value → Value
  | .mapping entries => .mapping (("id", .string id) :: Entries.erase entries "id")
  | v => .mapping (Entries.insert [("id", .string id)] tag v)

/-- The list of a map keyed by id; anything else stays. -/
def listOfMap (tag : String) : Value → Value
  | .mapping entries => .sequence (entries.map fun (id, v) => keyedEntry tag id v)
  | v => v

/-- The list of a value: a list stays, null is the empty list, anything else is its one item. -/
def listOfValue : Value → Value
  | .sequence items => .sequence items
  | .null => .sequence []
  | v => .sequence [v]

/-- Turn the id-keyed maps among the given fields into lists. -/
def dictToList (fields : List String) (tag : String) (entries : Mapping) : Mapping :=
  Entries.mapWithKey (fun k v => if k ∈ fields then listOfMap tag v else v) entries

/-- Wrap the values among the given fields that are not lists. -/
def forceList (fields : List String) (entries : Mapping) : Mapping :=
  Entries.mapWithKey (fun k v => if k ∈ fields then listOfValue v else v) entries

/-- The tagged tree of a type in any notation; a node that is no type stays as it is, and is
left to the reading of the canonical form. -/
def tagType (v : Value) : Value :=
  match TypeExpr.resolve "" v with
  | .ok t => t.toTree
  | .error _ => v

/-- A default tagged by its kind; null stays. -/
def coerceDefault : Value → Value
  | .null => .null
  | .string s => .tagged "string_value" (.string s)
  | .mapping entries => .tagged "struct_value" (.mapping entries)
  | .sequence items => .tagged "list_value" (.sequence items)
  | .float x => .tagged "float_value" (.float x)
  | .int i => .tagged "int_value" (.int i)
  | .bool b => .tagged "bool_value" (.bool b)

/-- Rewrite the items of a sequence; anything else stays. -/
def onItems (f : Value → Value) : Value → Value
  | .sequence items => .sequence (items.map f)
  | v => v

/-- Rewrite the entries of a mapping; anything else stays. -/
def onEntries (f : Mapping → Mapping) : Value → Value
  | .mapping entries => .mapping (f entries)
  | v => v

/-- The keys that `dictToList` keeps are all of them, in order. -/
@[simp] theorem keys_dictToList (fields : List String) (tag : String) (entries : Mapping) :
    Entries.keys (dictToList fields tag entries) = Entries.keys entries :=
  Entries.keys_mapWithKey _ _

/-- The keys that `forceList` keeps are all of them, in order. -/
@[simp] theorem keys_forceList (fields : List String) (entries : Mapping) :
    Entries.keys (forceList fields entries) = Entries.keys entries :=
  Entries.keys_mapWithKey _ _

end CanonicalCwl.Rewrite
