import CanonicalCwl.Proofs.Shape.Field
import CanonicalCwl.Proofs.Shape.Reading

/-!
# Records Put Together

The canonical form of a record, field by field: first a value is read for every entry, and then
the record is put together from its fields, in their order.

- `Shape.eq_ofSlots_of_assemble`: what a record is put together to.
- `Shape.get?_of_readEntries`: the values that are read for the entries.
- `Shape.exists_get?_of_read_record`: what is written for a field that is there.
-/

namespace CanonicalCwl

open Result

/-- What is written for a field, from the value that was read for it. -/
def Slot.written (slot : Slot) (value : Option Value) : Option Value :=
  match slot.presence with
  | .required | .optional => value
  | .omittedWhenEmpty => if value = some (.sequence []) then none else value
  | .defaulted d => value.or (some d)

/-- The entries of some fields, in order. -/
def Entries.ofSlots (slots : List Slot) (value : Slot → Option Value) : Mapping :=
  slots.flatMap fun slot => Entries.optional slot.name (value slot)

namespace Entries

variable {slots : List Slot} {value : Slot → Option Value}

@[simp] theorem ofSlots_nil : ofSlots [] value = [] := rfl

@[simp] theorem ofSlots_cons (slot : Slot) :
    ofSlots (slot :: slots) value = optional slot.name (value slot) ++ ofSlots slots value :=
  List.flatMap_cons

/-- Only the fields have entries. -/
theorem get?_ofSlots_eq_none {key : String} (h : key ∉ slots.map (·.name)) :
    get? (ofSlots slots value) key = none := by
  induction slots with
  | nil => rfl
  | cons slot slots ih =>
    simp only [List.map_cons, List.mem_cons, not_or] at h
    simp [Ne.symm h.1, ih h.2]

/-- The entry of a field holds its value. -/
theorem get?_ofSlots (hnodup : (slots.map (·.name)).Nodup) {slot : Slot} (h : slot ∈ slots) :
    get? (ofSlots slots value) slot.name = value slot := by
  induction slots with
  | nil => simp at h
  | cons s slots ih =>
    obtain ⟨hnot, hnodup⟩ := List.nodup_cons.mp hnodup
    rw [ofSlots_cons, get?_append, get?_optional]
    rcases List.mem_cons.mp h with rfl | h
    · rw [if_pos rfl, get?_ofSlots_eq_none hnot, Option.or_none]
    · have hne : s.name ≠ slot.name := fun heq => hnot (List.mem_map.mpr ⟨slot, h, heq.symm⟩)
      rw [if_neg hne, Option.none_or, ih hnodup h]

/-- The entries stand in the order of the fields. -/
theorem keys_ofSlots_sublist : (keys (ofSlots slots value)).Sublist (slots.map (·.name)) := by
  induction slots with
  | nil => exact .slnil
  | cons slot slots ih =>
    rw [ofSlots_cons, List.map_cons]
    cases hv : value slot with
    | none => exact ih.cons slot.name
    | some v => exact ih.cons_cons slot.name

end Entries

namespace Shape

variable {r : RecordKind} {slot : Slot} {slots : List Slot} {es fs values : Mapping}
  {key : String} {v : Value}

/-- A record is put together from what is written for its fields. -/
theorem eq_ofSlots_of_assemble {missing : Nat → Slot → Cause} {i : Nat}
    (h : assemble values missing i slots = .ok fs) :
    fs = Entries.ofSlots slots fun slot => slot.written (Entries.get? values slot.name) := by
  induction slots generalizing i fs with
  | nil => exact (Except.ok.inj h).symm
  | cons slot slots ih =>
    rw [Entries.ofSlots_cons, Slot.written]
    rw [assemble] at h
    split at h
    · cases h
    next hp hget => simp [hp, hget, Entries.optional, ih h]
    next hp hget => simp [hp, hget, Entries.optional, ih h]
    next hp hget => simp [hp, hget, Entries.optional, ih h]
    next d hp hget =>
      simp only [bind_eq_ok_iff, pure_eq_ok_iff] at h
      obtain ⟨gs, hgs, rfl⟩ := h
      simp [hp, hget, Entries.optional, ih hgs]
    next w hget hempty =>
      simp only [bind_eq_ok_iff, pure_eq_ok_iff] at h
      obtain ⟨gs, hgs, rfl⟩ := h
      -- A value is written whatever its field allows, but for an empty list.
      cases hp : slot.presence with
      | omittedWhenEmpty =>
        have hne : w ≠ .sequence [] := hempty hp
        simp [hget, hne, Entries.optional, ih hgs]
      | _ => simp [hget, Entries.optional, ih hgs]

/-- For an entry that is there a value is read. -/
theorem get?_of_readEntries (h : readEntries r es = .ok values) (hslot : r.slot? key = some slot)
    (hv : Entries.get? es key = some v) (hpresent : absent slot v = false) :
    ∃ w, slot.shape.read v = .ok w ∧ Entries.get? values key = some w := by
  induction es generalizing values with
  | nil => cases hv
  | cons e es ih =>
    obtain ⟨k, u⟩ := e
    rw [Entries.get?_cons] at hv
    rw [readEntries] at h
    split at h
    · cases h
    next slot' hslot' =>
    split at hv
    next hk =>
      -- The entry is the first one, and its field is the one that the key finds.
      obtain rfl := Option.some.inj hv
      obtain rfl := Option.some.inj (hslot.symm.trans (hk ▸ hslot'))
      rw [hpresent, if_neg Bool.false_ne_true] at h
      simp only [bind_eq_ok_iff, pure_eq_ok_iff, within_eq_ok_iff] at h
      obtain ⟨w, hw, gs, -, rfl⟩ := h
      exact ⟨w, hw, by rw [Entries.get?_cons, if_pos hk]⟩
    next hk =>
    split at h
    · exact ih h hv
    · simp only [bind_eq_ok_iff, pure_eq_ok_iff, within_eq_ok_iff] at h
      obtain ⟨w, -, gs, hgs, rfl⟩ := h
      rw [Entries.get?_cons, if_neg hk]
      exact ih hgs hv

/-- A field that is there is written as the canonical form of its value, unless that is an empty
list that need not be written. -/
theorem exists_get?_of_read_record (h : (record r).read (.mapping es) = .ok (.mapping fs))
    (hslot : slot ∈ r.slots) (hv : Entries.get? es slot.name = some v)
    (hpresent : absent slot v = false) :
    ∃ w, slot.shape.read v = .ok w ∧ Entries.get? fs slot.name = slot.written (some w) := by
  simp only [read, bind_eq_ok_iff, pure_eq_ok_iff, Value.mapping.injEq] at h
  obtain ⟨values, hvalues, fs', hfs, rfl⟩ := h
  obtain ⟨w, hw, hget⟩ := get?_of_readEntries hvalues (RecordKind.slot?_name hslot) hv hpresent
  refine ⟨w, hw, ?_⟩
  rw [eq_ofSlots_of_assemble hfs, Entries.get?_ofSlots r.fieldNames_nodup hslot, hget]

/-- The items of a list are read one by one. -/
theorem forall₂_itemsAt_of_read_record (h : (record r).read (.mapping es) = .ok (.mapping fs))
    {name : String} {item : Shape} (hslot : .list name item ∈ r.slots) {vs : List Value}
    (hv : Entries.get? es name = some (.sequence vs)) :
    List.Forall₂ (fun v w => item.read v = .ok w) vs ((Value.mapping fs).itemsAt name) := by
  obtain ⟨w, hw, hget⟩ := exists_get?_of_read_record h hslot hv rfl
  obtain ⟨vs', ws, heq, rfl, hitems⟩ := read_listOf_eq_ok_iff.mp hw
  obtain rfl := Value.sequence.inj heq
  -- The empty list is not written, and an absent one has no items.
  have hwritten : (Value.mapping fs).itemsAt name = ws := by
    rw [Value.itemsAt_eq, Value.get?_mapping, show Entries.get? fs name = _ from hget]
    cases ws <;> simp [Slot.written, Slot.list, Value.sequence?]
  rwa [hwritten]

end Shape

end CanonicalCwl
