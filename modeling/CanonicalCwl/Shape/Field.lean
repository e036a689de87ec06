import CanonicalCwl.Value

/-!
# Fields of a Canonical Tree

How single fields are taken out of a canonical tree, and how they are written: an optional
field that is absent and a list that is empty leave no entry.
-/

namespace CanonicalCwl

/-! ## Taking fields out -/

namespace Value

/-- The items under a key; none if there is no sequence. -/
def itemsAt (v : Value) (key : String) : List Value := ((v.get? key).bind sequence?).getD []

/-- The texts of the sequence under a key. -/
def stringsAt (v : Value) (key : String) : List String := (v.itemsAt key).filterMap string?

/-- The truth value of a node. -/
def bool? : Value → Option Bool
  | bool b => some b
  | _ => none

/-- The integer of a node. -/
def int? : Value → Option Int64
  | int i => some i
  | _ => none

/-- The truth value under a key. -/
def flagAt (v : Value) (key : String) : Option Bool := (v.get? key).bind bool?

/-- The integer under a key. -/
def intAt (v : Value) (key : String) : Option Int64 := (v.get? key).bind int?

/-- The integers of the sequence under a key. -/
def intsAt (v : Value) (key : String) : List Int64 := (v.itemsAt key).filterMap int?

/-- The mappings of the sequence under a key. -/
def mappingsAt (v : Value) (key : String) : List Mapping := (v.itemsAt key).filterMap mapping?

end Value

/-! ## Writing fields -/

namespace Entries

/-- The entry of an optional field. -/
def optional (key : String) (v : Option Value) : Mapping :=
  match v with
  | some v => [(key, v)]
  | none => []

/-- The entry of a list that is not written when empty. -/
def listed (key : String) (items : List Value) : Mapping :=
  if items.isEmpty then [] else [(key, .sequence items)]

/-- The entry of an optional text. -/
def optionalText (key : String) (s : Option String) : Mapping := optional key (s.map .string)

/-- The entry of an optional truth value. -/
def optionalFlag (key : String) (b : Option Bool) : Mapping := optional key (b.map .bool)

/-- The entry of a list of texts. -/
def listedTexts (key : String) (xs : List String) : Mapping := listed key (xs.map .string)

/-- The entry of a list of integers. -/
def listedInts (key : String) (xs : List Int64) : Mapping := listed key (xs.map .int)

/-- The entry of a list of mappings. -/
def listedMappings (key : String) (xs : List Mapping) : Mapping := listed key (xs.map .mapping)

end Entries

end CanonicalCwl
