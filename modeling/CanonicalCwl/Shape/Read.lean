import CanonicalCwl.Shape.Mismatch

/-!
# Reading a Tree by its Shape

`Shape.read` checks a tree against a shape and gives its canonical form: every record lists
its fields in order, null and empty fields that need not be written are left out, fields with
a default are written, and numbers in the place of a float are floats.

Entries are visited in the order they were written and the first fault wins; a missing field
is found only after all entries of its record were read. A record may also be written by
position, as a sequence.
-/

namespace CanonicalCwl

namespace Shape

/-- The fields of a record as they are written, from the values read for them. The first
required field without a value is the fault `missing` of its position. -/
def assemble (values : Mapping) (missing : Nat → Slot → Cause) :
    Nat → List Slot → Except Mismatch Mapping
  | _, [] => .ok []
  | i, slot :: rest =>
      let after := assemble values missing (i + 1) rest
      match slot.presence, Entries.get? values slot.name with
      | .required, none => .error ⟨[], missing i slot⟩
      | .omittedWhenEmpty, some (.sequence []) => after
      | .optional, none | .omittedWhenEmpty, none => after
      | .defaulted v, none => return (slot.name, v) :: (← after)
      | _, some v => return (slot.name, v) :: (← after)

/-- Whether a node stands for an absent field. -/
def absent (slot : Slot) (v : Value) : Bool :=
  match slot.presence, v with
  | .optional, .null => true
  | _, _ => false

mutual

/-- The canonical form of a tree that has the shape, or the first mismatch. -/
def read : Shape → Value → Except Mismatch Value
  | anything, v => .ok v
  | text, .string s => .ok (.string s)
  | flag, .bool b => .ok (.bool b)
  | integer, .int i => .ok (.int i)
  | real, .float x => .ok (.float x)
  | real, .int i => .ok (.float (Binary64.ofInt i))
  | mapping, .mapping entries => .ok (.mapping entries)
  | listOf item, .sequence items => do
      return .sequence (← readItems item 0 items)
  | record r, .mapping entries => do
      let values ← readEntries r entries
      return .mapping (← assemble values (fun _ slot => .missingField slot.name) 0 r.slots)
  | record r, .sequence items => do
      let values ← readPositions 0 r.slots items
      let entries ← assemble values (fun i _ => .tooShort i r) 0 r.slots
      -- Surplus elements are counted only when all fields are there.
      if r.slots.length < items.length then .error ⟨[], .tooLong items.length⟩
      else return .mapping entries
  | choice c, .string arm =>
      if (Entries.contains c.arms arm) then .error ⟨[.key arm], .bareArm⟩
      else .error ⟨[], .unknownArm arm (Entries.keys c.arms)⟩
  | choice c, .mapping [(arm, v)] =>
      match Entries.get? c.arms arm with
      | some s => do return .mapping [(arm, ← within (.key arm) (read s v))]
      | none => .error ⟨[], .unknownArm arm (Entries.keys c.arms)⟩
  | choice _, .mapping _ => .error ⟨[], .notSingleEntry⟩
  | shape, v => .error ⟨[], .wrongKind v shape⟩

/-- The canonical forms of list items, the first of which has index `i`. -/
def readItems (item : Shape) (i : Nat) : List Value → Except Mismatch (List Value)
  | [] => .ok []
  | v :: rest => do
      let v ← within (.index i) (read item v)
      return v :: (← readItems item (i + 1) rest)

/-- The canonical forms of the fields given by name, in the order they were written. -/
def readEntries (r : RecordKind) : List (String × Value) → Except Mismatch Mapping
  | [] => .ok []
  | (k, v) :: rest =>
      match r.slot? k with
      | none => .error ⟨[.key k], .unknownField k r.fieldNames⟩
      | some slot =>
          if absent slot v then readEntries r rest
          else do
            let v ← within (.key k) (read slot.shape v)
            return (k, v) :: (← readEntries r rest)

/-- The canonical forms of the fields given by position, the first of which is `i`. -/
def readPositions (i : Nat) : List Slot → List Value → Except Mismatch Mapping
  | slot :: slots, v :: rest =>
      if absent slot v then readPositions (i + 1) slots rest
      else do
        let v ← within (.index i) (read slot.shape v)
        return (slot.name, v) :: (← readPositions (i + 1) slots rest)
  | _, _ => .ok []

end

end Shape

end CanonicalCwl
