import CanonicalCwl.Proofs.Shape.Assembly
import CanonicalCwl.Proofs.Shape.Field

/-!
# Records Written Again

A canonical record consists of its fields, in order. A field that is taken out of it and written
again leaves the entry that was there, and so a record that is taken apart and put together from
what was taken out is the same record.

- `Shape.ofSlots_of_read_record`: a canonical record consists of its fields.
- `Shape.read_of_get?`: what a field of a canonical record holds is in canonical form.
-/

namespace CanonicalCwl

open Result

namespace Entries

/-- Fields that hold the same have the same entries. -/
theorem ofSlots_congr {slots : List Slot} {f g : Slot → Option Value}
    (h : ∀ slot ∈ slots, f slot = g slot) : ofSlots slots f = ofSlots slots g := by
  induction slots with
  | nil => rfl
  | cons slot slots ih =>
    rw [ofSlots_cons, ofSlots_cons, h slot (List.mem_cons_self ..),
      ih fun s hs => h s (List.mem_cons_of_mem _ hs)]

@[simp] theorem ofSlots_append {slots slots' : List Slot} {value : Slot → Option Value} :
    ofSlots (slots ++ slots') value = ofSlots slots value ++ ofSlots slots' value :=
  List.flatMap_append

end Entries

namespace Shape

/-! ## Canonical values -/

section

variable {v w : Value}

/-- A canonical text. -/
theorem string?_of_read (h : text.read v = .ok w) : w.string?.map Value.string = some w := by
  cases v <;> simp only [read, reduceCtorEq, Except.ok.injEq] at h
  subst h
  rfl

/-- A canonical truth value. -/
theorem bool?_of_read (h : flag.read v = .ok w) : w.bool?.map Value.bool = some w := by
  cases v <;> simp only [read, reduceCtorEq, Except.ok.injEq] at h
  subst h
  rfl

/-- A canonical integer. -/
theorem int?_of_read (h : integer.read v = .ok w) : w.int?.map Value.int = some w := by
  cases v <;> simp only [read, reduceCtorEq, Except.ok.injEq] at h
  subst h
  rfl

/-- A canonical mapping. -/
theorem mapping?_of_read (h : mapping.read v = .ok w) : w.mapping?.map Value.mapping = some w := by
  cases v <;> simp only [read, reduceCtorEq, Except.ok.injEq] at h
  subst h
  rfl

/-- Canonical items that are kept when they are taken apart one by one. -/
theorem map_filterMap_of_read {α : Type} {item : Shape} {take : Value → Option α} {put : α → Value}
    (hkept : ∀ v w, item.read v = .ok w → (take w).map put = some w) {ws : List Value}
    (hws : ∀ w ∈ ws, ∃ v, item.read v = .ok w) : (ws.filterMap take).map put = ws := by
  induction ws with
  | nil => rfl
  | cons w ws ih =>
    obtain ⟨v, hv⟩ := hws w (List.mem_cons_self ..)
    obtain ⟨a, htake, hput⟩ := Option.map_eq_some_iff.mp (hkept v w hv)
    rw [List.filterMap_cons_some htake, List.map_cons, hput,
      ih fun w hw => hws w (List.mem_cons_of_mem _ hw)]

end

/-! ## The fields of a canonical record -/

/-- The default of a field is in canonical form. -/
theorem read_default {r : RecordKind} {slot : Slot} (hslot : slot ∈ r.slots) {d : Value}
    (hd : slot.presence = .defaulted d) : slot.shape.read d = .ok d := by
  have hdefaults : ∀ slot ∈ r.slots, ∀ d, slot.presence = .defaulted d →
      slot.shape.read d = .ok d := by
    cases r <;> simp [RecordKind.slots, RecordKind.headerSlots, RecordKind.footerSlots,
      Slot.optional, Slot.list, Slot.required, Slot.defaulted, read, readItems, Bind.bind,
      Except.bind, Pure.pure, Except.pure]
  exact hdefaults slot hslot d hd

/-- A record that is put together has a value for every field that has to be present. -/
theorem exists_get?_of_assemble {values fs : Mapping} {missing : Nat → Slot → Cause} {i : Nat}
    {slots : List Slot} (h : assemble values missing i slots = .ok fs) {slot : Slot}
    (hslot : slot ∈ slots) (hp : slot.presence = .required) :
    ∃ u, Entries.get? values slot.name = some u := by
  induction slots generalizing i fs with
  | nil => simp at hslot
  | cons s slots ih =>
    rw [assemble] at h
    rcases List.mem_cons.mp hslot with rfl | hslot
    · cases hget : Entries.get? values slot.name with
      | some u => exact ⟨u, rfl⟩
      | none => simp [hp, hget] at h
    · split at h
      · cases h
      · exact ih h hslot
      · exact ih h hslot
      · exact ih h hslot
      all_goals
        simp only [bind_eq_ok_iff] at h
        obtain ⟨gs, hgs, -⟩ := h
        exact ih hgs hslot

section

variable {r : RecordKind} {v : Value} {fs : Mapping} (h : (record r).read v = .ok (.mapping fs))

include h

/-- The values that a canonical record was put together from. -/
theorem exists_values_of_read_record : ∃ values,
    fs = Entries.ofSlots r.slots (fun slot => slot.written (Entries.get? values slot.name)) ∧
      ∀ slot ∈ r.slots, slot.presence = .required →
        ∃ u, Entries.get? values slot.name = some u := by
  cases v with
  | mapping es =>
    simp only [read, bind_eq_ok_iff, pure_eq_ok_iff, Value.mapping.injEq] at h
    obtain ⟨values, -, fs', hfs, rfl⟩ := h
    exact ⟨values, eq_ofSlots_of_assemble hfs, fun _ => exists_get?_of_assemble hfs⟩
  | sequence items =>
    rw [read] at h
    simp only [bind_eq_ok_iff] at h
    obtain ⟨values, -, fs', hfs, h⟩ := h
    split at h
    · cases h
    · obtain rfl := Value.mapping.inj (pure_eq_ok_iff.mp h)
      exact ⟨values, eq_ofSlots_of_assemble hfs, fun _ => exists_get?_of_assemble hfs⟩
  | _ => simp [read] at h

/-- A canonical record consists of its fields, in order. -/
theorem ofSlots_of_read_record :
    Entries.ofSlots r.slots (fun slot => Entries.get? fs slot.name) = fs := by
  obtain ⟨values, rfl, -⟩ := exists_values_of_read_record h
  exact Entries.ofSlots_congr fun slot hslot => Entries.get?_ofSlots r.fieldNames_nodup hslot

/-- What a field of a canonical record holds is in canonical form. -/
theorem read_of_get? {slot : Slot} (hslot : slot ∈ r.slots) {u : Value}
    (hu : Entries.get? fs slot.name = some u) : ∃ v, slot.shape.read v = .ok u := by
  obtain ⟨fs', heq, hholds⟩ := get?_of_read_record h
  obtain rfl := Value.mapping.inj heq
  rcases hholds slot hslot u hu with ⟨v, hv⟩ | hdefault
  · exact ⟨v, hv.read⟩
  · exact ⟨u, read_default hslot hdefault⟩

/-- A field that cannot be left out is there, in canonical form. -/
theorem exists_get?_of_not_omissible (slot : Slot) (hslot : slot ∈ r.slots)
    (hp : ¬slot.Omissible) :
    ∃ u, Entries.get? fs slot.name = some u ∧ ∃ v, slot.shape.read v = .ok u := by
  suffices hget : ∃ u, Entries.get? fs slot.name = some u by
    obtain ⟨u, hu⟩ := hget
    exact ⟨u, hu, read_of_get? h hslot hu⟩
  obtain ⟨values, rfl, hrequired⟩ := exists_values_of_read_record h
  rw [Entries.get?_ofSlots r.fieldNames_nodup hslot, Slot.written]
  cases hpresence : slot.presence with
  | required => exact hrequired slot hslot hpresence
  | optional => exact absurd (.inl hpresence) hp
  | omittedWhenEmpty => exact absurd (.inr hpresence) hp
  | defaulted d => cases Entries.get? values slot.name <;> simp

/-- The entry of a field that cannot be left out stands in front of those of later fields. -/
theorem exists_ofSlots_cons (slot : Slot) (slots : List Slot) (hslot : slot ∈ r.slots)
    (hp : ¬slot.Omissible) : ∃ u, (∃ v, slot.shape.read v = .ok u) ∧
      Entries.ofSlots (slot :: slots) (fun slot => Entries.get? fs slot.name) =
        (slot.name, u) :: Entries.ofSlots slots fun slot => Entries.get? fs slot.name := by
  obtain ⟨u, hu, hread⟩ := exists_get?_of_not_omissible h slot hslot hp
  refine ⟨u, hread, ?_⟩
  rw [Entries.ofSlots_cons, hu]
  rfl

/-! ## Fields taken out and written again -/

section

variable {α : Type} {take : Value → Option α} {put : α → Value} {shape item : Shape}

/-- An optional field whose canonical values are kept when they are taken apart. -/
theorem optional_map_bind (name : String) (hslot : .optional name shape ∈ r.slots)
    (hkept : ∀ v w, shape.read v = .ok w → (take w).map put = some w) :
    Entries.optional name (((Entries.get? fs name).bind take).map put) =
      Entries.optional name (Entries.get? fs name) := by
  match hu : Entries.get? fs name with
  | none => rfl
  | some u =>
    obtain ⟨v', hv⟩ := read_of_get? h hslot hu
    rw [Option.bind_some, hkept v' u hv]

/-- The items of a list that is not written when empty. -/
theorem listed_itemsAt (name : String) (hslot : .list name item ∈ r.slots) :
    Entries.listed name ((Value.mapping fs).itemsAt name) =
      Entries.optional name (Entries.get? fs name) := by
  rw [Entries.listed_eq_optional, Value.itemsAt_eq, Value.get?_mapping]
  match hu : Entries.get? fs name with
  | none => rfl
  | some u =>
    obtain ⟨v', hv⟩ := takes_of_read_record h _ hslot nofun hu
    obtain ⟨vs, ws, -, rfl, -⟩ := read_listOf_eq_ok_iff.mp hv.read
    cases ws with
    | nil => exact absurd rfl (hv.nonempty rfl)
    | cons => rfl

/-- A list whose canonical items are kept when they are taken apart. -/
theorem listed_map_filterMap (name : String) (hslot : .list name item ∈ r.slots)
    (hkept : ∀ v w, item.read v = .ok w → (take w).map put = some w) :
    Entries.listed name ((((Value.mapping fs).itemsAt name).filterMap take).map put) =
      Entries.optional name (Entries.get? fs name) := by
  rw [map_filterMap_of_read hkept fun w hw => read_of_mem_itemsAt h name item hslot hw,
    listed_itemsAt h name hslot]

end

end

/-! ## Records put together again -/

/-- The entries are those of the fields in a canonical record of the kind, in order. -/
def Keeps (r : RecordKind) (fs : Mapping) (slots : List Slot) (es : Mapping) : Prop :=
  (∀ slot ∈ slots, slot ∈ r.slots) →
    es = Entries.ofSlots slots fun slot => Entries.get? fs slot.name

namespace Keeps

variable {r : RecordKind} {fs : Mapping}

/-- The pieces of a record follow each other as its fields do. -/
theorem append {slots slots' : List Slot} {es es' : Mapping} (h : Keeps r fs slots es)
    (h' : Keeps r fs slots' es') : Keeps r fs (slots ++ slots') (es ++ es') := by
  intro hslots
  rw [Entries.ofSlots_append, ← h fun slot hs => hslots slot (List.mem_append_left _ hs),
    ← h' fun slot hs => hslots slot (List.mem_append_right _ hs)]

/-- The piece of one field is its entry. -/
theorem of_eq {slot : Slot} {es : Mapping}
    (h : slot ∈ r.slots → es = Entries.optional slot.name (Entries.get? fs slot.name)) :
    Keeps r fs [slot] es := by
  intro hslots
  rw [Entries.ofSlots_cons, Entries.ofSlots_nil, List.append_nil]
  exact h (hslots slot (List.mem_singleton_self _))

/-- An optional field that may hold any tree. -/
theorem optionalTree (name : String) :
    Keeps r fs [.optional name .anything]
      (Entries.optional name ((Value.mapping fs).get? name)) :=
  of_eq fun _ => rfl

variable {v : Value} (h : (record r).read v = .ok (.mapping fs))

include h

/-- A record whose fields were all kept is the same. -/
theorem eq {es : Mapping} (hkeeps : Keeps r fs r.slots es) : es = fs :=
  (hkeeps fun _ => id).trans (ofSlots_of_read_record h)

variable (name : String)

/-- An optional text. -/
theorem optionalText :
    Keeps r fs [.optional name .text]
      (Entries.optionalText name ((Value.mapping fs).text? name)) :=
  of_eq fun hslot => optional_map_bind h name hslot fun _ _ => string?_of_read

/-- An optional truth value. -/
theorem optionalFlag :
    Keeps r fs [.optional name .flag]
      (Entries.optionalFlag name ((Value.mapping fs).flagAt name)) :=
  of_eq fun hslot => optional_map_bind h name hslot fun _ _ => bool?_of_read

/-- An optional integer. -/
theorem optionalInt :
    Keeps r fs [.optional name .integer]
      (Entries.optional name (((Value.mapping fs).intAt name).map .int)) :=
  of_eq fun hslot => optional_map_bind h name hslot fun _ _ => int?_of_read

/-- An optional part whose canonical trees are kept. -/
theorem optionalPart {α : Type} {shape : Shape} {put : α → Value} {take : Value → α}
    (hkept : ∀ v w, shape.read v = .ok w → put (take w) = w) :
    Keeps r fs [.optional name shape]
      (Entries.optional name ((((Value.mapping fs).get? name).map take).map put)) := by
  refine of_eq fun hslot => ?_
  rw [Value.get?_mapping, Option.map_eq_bind (f := take)]
  exact optional_map_bind h name hslot fun v w hw => congrArg some (hkept v w hw)

/-- A list of texts. -/
theorem listedTexts :
    Keeps r fs [.list name .text]
      (Entries.listedTexts name ((Value.mapping fs).stringsAt name)) :=
  of_eq fun hslot => listed_map_filterMap h name hslot fun _ _ => string?_of_read

/-- A list of integers. -/
theorem listedInts :
    Keeps r fs [.list name .integer]
      (Entries.listedInts name ((Value.mapping fs).intsAt name)) :=
  of_eq fun hslot => listed_map_filterMap h name hslot fun _ _ => int?_of_read

/-- A list of mappings. -/
theorem listedMappings :
    Keeps r fs [.list name .mapping]
      (Entries.listedMappings name ((Value.mapping fs).mappingsAt name)) :=
  of_eq fun hslot => listed_map_filterMap h name hslot fun _ _ => mapping?_of_read

/-- A list that is not written when empty. -/
theorem listedItems (item : Shape) :
    Keeps r fs [.list name item] (Entries.listed name ((Value.mapping fs).itemsAt name)) :=
  of_eq fun hslot => listed_itemsAt h name hslot

/-- A list of parts whose canonical trees are kept. -/
theorem listedParts {α : Type} {item : Shape} {put : α → Value} {take : Value → α}
    (hkept : ∀ v w, item.read v = .ok w → put (take w) = w) :
    Keeps r fs [.list name item]
      (Entries.listed name ((((Value.mapping fs).itemsAt name).map take).map put)) := by
  refine of_eq fun hslot => ?_
  rw [← List.filterMap_eq_map (f := take)]
  exact listed_map_filterMap h name hslot fun v w hw => congrArg some (hkept v w hw)

/-- A text that cannot be left out. -/
theorem presentText (slot : Slot) (hshape : slot.shape = .text) (hp : ¬slot.Omissible) :
    Keeps r fs [slot]
      [(slot.name, .string (((Value.mapping fs).text? slot.name).getD ""))] := by
  refine of_eq fun hslot => ?_
  obtain ⟨u, hu, v', hv⟩ := exists_get?_of_not_omissible h slot hslot hp
  rw [hshape] at hv
  obtain ⟨s, -, rfl⟩ := Option.map_eq_some_iff.mp (string?_of_read hv)
  rw [Value.text?_eq, Value.get?_mapping, hu]
  rfl

/-- A list of parts that cannot be left out and whose canonical trees are kept. -/
theorem presentParts {α : Type} {item : Shape} {put : α → Value} {take : Value → α} (slot : Slot)
    (hshape : slot.shape = .listOf item) (hp : ¬slot.Omissible)
    (hkept : ∀ v w, item.read v = .ok w → put (take w) = w) :
    Keeps r fs [slot]
      [(slot.name, .sequence ((((Value.mapping fs).itemsAt slot.name).map take).map put))] := by
  refine of_eq fun hslot => ?_
  obtain ⟨u, hu, v', hv⟩ := exists_get?_of_not_omissible h slot hslot hp
  rw [hshape] at hv
  obtain ⟨vs, ws, -, rfl, -⟩ := read_listOf_eq_ok_iff.mp hv
  have hitems : (ws.map take).map put = ws := by
    rw [← List.filterMap_eq_map (f := take)]
    refine map_filterMap_of_read ?_ fun w hw => read_of_mem_listOf hv hw
    exact fun v w hw => congrArg some (hkept v w hw)
  rw [Value.itemsAt_eq, Value.get?_mapping, hu]
  exact congrArg (fun ws => [(slot.name, Value.sequence ws)]) hitems

end Keeps

end Shape

end CanonicalCwl
