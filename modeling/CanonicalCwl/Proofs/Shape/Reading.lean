import CanonicalCwl.Proofs.Entries
import CanonicalCwl.Proofs.Result
import CanonicalCwl.Shape.Read

/-!
# Reading Records

What reading a tree by its shape amounts to, without its recursion.

- `Shape.Reads` relates the entries of a record, written in the order of its fields, to their
  canonical form, field by field. Records are put together from it with `Reads.append`.
- `Shape.Reads.read_record` and `Shape.Reads.read_record_front`: such entries are read as that
  form, also when one of them is moved to the front.
- `Shape.get?_of_read_record`: every field of a record that was read holds what its slot takes.
-/

namespace CanonicalCwl

open Result

namespace Shape

attribute [local simp] read readItems readEntries readPositions

/-! ## Trees that are kept -/

@[simp] theorem read_text (s : String) : text.read (.string s) = .ok (.string s) := by simp

@[simp] theorem read_flag (b : Bool) : flag.read (.bool b) = .ok (.bool b) := by simp

@[simp] theorem read_integer (i : Int64) : integer.read (.int i) = .ok (.int i) := by simp

@[simp] theorem read_real (x : Binary64) : real.read (.float x) = .ok (.float x) := by simp

@[simp] theorem read_mapping (entries : Mapping) :
    mapping.read (.mapping entries) = .ok (.mapping entries) := by simp

@[simp] theorem read_anything (v : Value) : anything.read v = .ok v := by simp

/-! ## Lists and alternatives -/

/-- Reporting under a segment changes no result. -/
theorem within_eq_ok_iff {α : Type} {s : Segment} {x : Except Mismatch α} {a : α} :
    within s x = .ok a ↔ x = .ok a := by
  cases x <;> simp [within]

/-- Items are read one by one, whatever their indices. -/
theorem readItems_eq_ok_iff {item : Shape} {i : Nat} {vs ws : List Value} :
    readItems item i vs = .ok ws ↔ List.Forall₂ (fun v w => item.read v = .ok w) vs ws := by
  induction vs generalizing i ws with
  | nil => cases ws <;> simp [readItems]
  | cons v vs ih =>
    rw [readItems]
    simp only [bind_eq_ok_iff, pure_eq_ok_iff, within_eq_ok_iff, List.forall₂_cons_left_iff, ih]
    constructor
    · rintro ⟨w, hw, ws, hws, rfl⟩
      exact ⟨w, ws, hw, hws, rfl⟩
    · rintro ⟨w, ws, hw, hws, rfl⟩
      exact ⟨w, hw, ws, hws, rfl⟩

/-- A list is read from a sequence, item by item. -/
theorem read_listOf_eq_ok_iff {item : Shape} {v w : Value} :
    (listOf item).read v = .ok w ↔
      ∃ vs ws, v = .sequence vs ∧ w = .sequence ws ∧
        List.Forall₂ (fun v w => item.read v = .ok w) vs ws := by
  cases v with
  | sequence vs =>
    simp only [read, bind_eq_ok_iff, pure_eq_ok_iff, readItems_eq_ok_iff, Value.sequence.injEq]
    constructor
    · rintro ⟨ws, hws, rfl⟩
      exact ⟨vs, ws, rfl, rfl, hws⟩
    · rintro ⟨_, ws, rfl, rfl, hws⟩
      exact ⟨ws, hws, rfl⟩
  | _ => simp [read]

/-- A tagged alternative is read from a mapping of one entry, by the shape of its arm. -/
theorem read_choice_eq_ok_iff {c : ChoiceKind} {v w : Value} :
    (choice c).read v = .ok w ↔
      ∃ arm s u u', v = .mapping [(arm, u)] ∧ Entries.get? c.arms arm = some s ∧
        s.read u = .ok u' ∧ w = .tagged arm u' := by
  constructor
  · intro h
    -- A bare arm and a mapping of more or fewer entries are refused.
    match v with
    | .mapping [(arm, u)] =>
      rw [read] at h
      split at h
      · next s hs =>
        simp only [bind_eq_ok_iff, pure_eq_ok_iff, within_eq_ok_iff] at h
        obtain ⟨u', hu, rfl⟩ := h
        exact ⟨arm, s, u, u', rfl, hs, hu, rfl⟩
      · cases h
    | .mapping [] | .mapping (_ :: _ :: _) | .null | .bool _ | .int _ | .float _ | .sequence _ =>
      simp [read] at h
    | .string arm =>
      rw [read] at h
      split at h <;> cases h
  · rintro ⟨arm, s, u, u', rfl, hs, hu, rfl⟩
    rw [read, hs]
    simp only [bind_eq_ok_iff, pure_eq_ok_iff, within_eq_ok_iff]
    exact ⟨u', hu, rfl⟩

/-- A tagged tree is read by the shape of its arm. -/
theorem read_tagged {c : ChoiceKind} {arm : String} {s : Shape} {u u' : Value}
    (hs : Entries.get? c.arms arm = some s) (hu : s.read u = .ok u') :
    (choice c).read (.tagged arm u) = .ok (.tagged arm u') :=
  read_choice_eq_ok_iff.mpr ⟨arm, s, u, u', rfl, hs, hu, rfl⟩

/-- What stands under the tag of a canonical tree was read by the shape of its arm. -/
theorem read_of_tagged {c : ChoiceKind} {arm : String} {v u : Value}
    (h : (choice c).read v = .ok (.tagged arm u)) {s : Shape}
    (hs : Entries.get? c.arms arm = some s) : ∃ v', s.read v' = .ok u := by
  obtain ⟨arm', s', v', u', -, hs', hv, heq⟩ := read_choice_eq_ok_iff.mp h
  simp only [Value.tagged, Value.mapping.injEq, List.cons.injEq, Prod.mk.injEq, and_true] at heq
  obtain ⟨rfl, rfl⟩ := heq
  obtain rfl := Option.some.inj (hs.symm.trans hs')
  exact ⟨v', hv⟩

/-- The items of a list that was read were read one by one. -/
theorem read_of_mem_listOf {item : Shape} {v : Value} {ws : List Value}
    (h : (listOf item).read v = .ok (.sequence ws)) {w : Value} (hw : w ∈ ws) :
    ∃ v', item.read v' = .ok w := by
  obtain ⟨vs, ws', -, heq, hread⟩ := read_listOf_eq_ok_iff.mp h
  obtain rfl := Value.sequence.inj heq
  obtain ⟨v', -, hv'⟩ := exists_of_mem_right hread hw
  exact ⟨v', hv'⟩

/-! ## Records written in the order of their fields -/

end Shape

namespace Slot

/-- The field may be left out and is then not written. -/
def Omissible (slot : Slot) : Prop :=
  slot.presence = .optional ∨ slot.presence = .omittedWhenEmpty

/-- A present value that stands for the field, and its canonical form. -/
structure Takes (slot : Slot) (v w : Value) : Prop where
  /-- The value has the shape of the field. -/
  read : slot.shape.read v = .ok w
  /-- The value does not stand for an absent field. -/
  present : Shape.absent slot v = false
  /-- A list that is not written when empty is not empty. -/
  nonempty : slot.presence = .omittedWhenEmpty → w ≠ .sequence []

end Slot

namespace Shape

/-- The entries of a record, written in the order of its fields, and their canonical form. -/
inductive Reads : List Slot → Mapping → Mapping → Prop
  | nil : Reads [] [] []
  | skip {slot slots es fs} : slot.Omissible → Reads slots es fs → Reads (slot :: slots) es fs
  | put {slot slots v w es fs} :
      slot.Takes v w → Reads slots es fs →
        Reads (slot :: slots) ((slot.name, v) :: es) ((slot.name, w) :: fs)

namespace Reads

variable {slots slots' : List Slot} {es es' fs fs' : Mapping}

/-- The pieces of a record follow each other as its fields do. -/
theorem append (h : Reads slots es fs) (h' : Reads slots' es' fs') :
    Reads (slots ++ slots') (es ++ es') (fs ++ fs') := by
  induction h with
  | nil => exact h'
  | skip hslot _ ih => exact skip hslot ih
  | put ht _ ih => exact put ht ih

/-- The canonical form has no other keys than the names of the fields. -/
theorem name_mem_of_key_mem (h : Reads slots es fs) {key : String}
    (hk : key ∈ Entries.keys fs) : key ∈ slots.map (·.name) := by
  induction h with
  | nil => simp [Entries.keys] at hk
  | skip _ _ ih => exact List.mem_cons_of_mem _ (ih hk)
  | put _ _ ih =>
    rcases List.mem_cons.mp hk with rfl | hk
    · simp
    · exact List.mem_cons_of_mem _ (ih hk)

/-- Entries in the order of the fields are read entry by entry. -/
theorem readEntries {r : RecordKind} (h : Reads slots es fs)
    (hslots : ∀ slot ∈ slots, r.slot? slot.name = some slot) :
    Shape.readEntries r es = .ok fs := by
  induction h with
  | nil => simp [Shape.readEntries]
  | skip _ _ ih => exact ih fun slot hs => hslots slot (List.mem_cons_of_mem _ hs)
  | put ht _ ih =>
    have hrest := ih fun slot hs => hslots slot (List.mem_cons_of_mem _ hs)
    rw [Shape.readEntries, hslots _ (List.mem_cons_self ..)]
    simp [ht.present, ht.read, hrest, within, Bind.bind, Except.bind, Pure.pure, Except.pure]

/-- Values that agree with the canonical form on the fields are put together to it. -/
theorem assemble {values : Mapping} (h : Reads slots es fs)
    (hnodup : (slots.map (·.name)).Nodup)
    (hvalues : ∀ slot ∈ slots, Entries.get? values slot.name = Entries.get? fs slot.name)
    (missing : Nat → Slot → Cause) (i : Nat) :
    Shape.assemble values missing i slots = .ok fs := by
  induction h generalizing i with
  | nil => rfl
  | @skip slot slots es fs hslot htail ih =>
    obtain ⟨hnot, hnodup⟩ := List.nodup_cons.mp hnodup
    -- The later fields have other names, so that this one has no value.
    have hnone : Entries.get? values slot.name = none := by
      rw [hvalues slot (List.mem_cons_self ..), Entries.get?_eq_none_iff]
      exact fun hk => hnot (htail.name_mem_of_key_mem hk)
    have hrest := ih hnodup (fun s hs => hvalues s (List.mem_cons_of_mem _ hs)) (i + 1)
    rcases hslot with hp | hp <;> simp [Shape.assemble, hp, hnone, hrest]
  | @put slot slots v w es fs ht htail ih =>
    obtain ⟨hnot, hnodup⟩ := List.nodup_cons.mp hnodup
    have hsome : Entries.get? values slot.name = some w := by
      rw [hvalues slot (List.mem_cons_self ..)]
      simp [Entries.get?_cons]
    have hrest : Shape.assemble values missing (i + 1) slots = .ok fs := by
      refine ih hnodup (fun s hs => ?_) (i + 1)
      have hne : slot.name ≠ s.name := fun heq =>
        hnot (List.mem_map.mpr ⟨s, hs, heq.symm⟩)
      rw [hvalues s (List.mem_cons_of_mem _ hs), Entries.get?_cons, if_neg hne]
    rw [Shape.assemble, hsome, hrest]
    -- A value is written whatever its field allows, but for an empty list.
    cases hp : slot.presence with
    | omittedWhenEmpty =>
      have hne := ht.nonempty hp
      cases w with
      | sequence items =>
        cases items with
        | nil => exact absurd rfl hne
        | cons => rfl
      | _ => rfl
    | _ => rfl

end Reads

end Shape

/-- No record has two fields of one name. -/
theorem RecordKind.fieldNames_nodup (r : RecordKind) : (r.slots.map (·.name)).Nodup := by
  cases r <;> decide

/-- In a list of fields with distinct names, each is the one that its name finds. -/
theorem find?_name_eq_some {slots : List Slot} (hnodup : (slots.map (·.name)).Nodup)
    {slot : Slot} (h : slot ∈ slots) : slots.find? (·.name == slot.name) = some slot := by
  induction slots with
  | nil => simp at h
  | cons s slots ih =>
    obtain ⟨hnot, hnodup⟩ := List.nodup_cons.mp hnodup
    rcases List.mem_cons.mp h with rfl | h
    · simp
    · have hne : s.name ≠ slot.name := fun heq => hnot (List.mem_map.mpr ⟨slot, h, heq.symm⟩)
      simp [hne, ih hnodup h]

/-- A field of a record is the one that its name finds. -/
theorem RecordKind.slot?_name {r : RecordKind} {slot : Slot} (h : slot ∈ r.slots) :
    r.slot? slot.name = some slot :=
  find?_name_eq_some r.fieldNames_nodup h

namespace Shape

/-- A record written in the order of its fields is read as its canonical form. -/
theorem Reads.read_record {r : RecordKind} {es fs : Mapping} (h : Reads r.slots es fs) :
    (record r).read (.mapping es) = .ok (.mapping fs) := by
  have hentries : Shape.readEntries r es = .ok fs :=
    h.readEntries fun slot hs => RecordKind.slot?_name hs
  have hassemble : Shape.assemble fs (fun _ slot => .missingField slot.name) 0 r.slots = .ok fs :=
    h.assemble r.fieldNames_nodup (fun _ _ => rfl) _ 0
  simp only [read, bind_eq_ok_iff, pure_eq_ok_iff]
  exact ⟨fs, hentries, fs, hassemble, rfl⟩

/-- An optional field that is null is read as if it was not there. -/
theorem read_record_append_null {r : RecordKind} {slot : Slot} (hslot : slot ∈ r.slots)
    (hp : slot.presence = .optional) (es : Mapping) :
    (record r).read (.mapping (es ++ [(slot.name, .null)])) = (record r).read (.mapping es) := by
  have hentries : readEntries r (es ++ [(slot.name, .null)]) = readEntries r es := by
    induction es with
    | nil => simp [readEntries, RecordKind.slot?_name hslot, absent, hp]
    | cons e es ih =>
      obtain ⟨k, v⟩ := e
      rw [List.cons_append, readEntries, readEntries, ih]
  rw [read, read, hentries]

/-- What is read without an entry is what was read, without it. -/
theorem readEntries_erase {r : RecordKind} {es fs : Mapping} (key : String)
    (h : readEntries r es = .ok fs) :
    readEntries r (Entries.erase es key) = .ok (Entries.erase fs key) := by
  induction es generalizing fs with
  | nil =>
    simp only [readEntries, Except.ok.injEq] at h
    subst h
    rfl
  | cons e es ih =>
    obtain ⟨k, v⟩ := e
    rw [readEntries] at h
    split at h
    · cases h
    next slot hslot =>
    split at h
    next habs =>
      -- An absent field leaves nothing to erase.
      rw [Entries.erase_cons]
      split
      · exact ih h
      · rw [readEntries, hslot]
        simpa [habs] using ih h
    next habs =>
      simp only [bind_eq_ok_iff, pure_eq_ok_iff, within_eq_ok_iff] at h
      obtain ⟨w, hw, gs, hgs, rfl⟩ := h
      rw [Entries.erase_cons, Entries.erase_cons]
      by_cases hk : k = key
      · simpa [hk] using ih hgs
      · rw [if_neg hk, if_neg hk, readEntries, hslot]
        simp only [habs, bind_eq_ok_iff, pure_eq_ok_iff, within_eq_ok_iff, Bool.false_eq_true,
          if_false]
        exact ⟨w, hw, _, ih hgs, rfl⟩

/-- A record in the order of its fields is read as its canonical form also when one of its
entries stands in front. -/
theorem Reads.read_record_front {r : RecordKind} {es fs : Mapping} (h : Reads r.slots es fs)
    {slot : Slot} (hslot : slot ∈ r.slots) {v w : Value} (ht : slot.Takes v w)
    (hw : Entries.get? fs slot.name = some w) :
    (record r).read (.mapping ((slot.name, v) :: Entries.erase es slot.name)) =
      .ok (.mapping fs) := by
  have hentries : Shape.readEntries r ((slot.name, v) :: Entries.erase es slot.name) =
      .ok ((slot.name, w) :: Entries.erase fs slot.name) := by
    have hrest := readEntries_erase slot.name
      (h.readEntries fun slot hs => RecordKind.slot?_name hs)
    rw [Shape.readEntries, RecordKind.slot?_name hslot]
    simp [ht.present, ht.read, hrest, within, Bind.bind, Except.bind, Pure.pure, Except.pure]
  -- Only lookups matter from here on, and they do not see where an entry stands.
  have hget (s : Slot) : Entries.get? ((slot.name, w) :: Entries.erase fs slot.name) s.name =
      Entries.get? fs s.name := by
    rw [Entries.get?_cons, Entries.get?_erase]
    by_cases heq : slot.name = s.name
    · rw [if_pos heq, ← heq, hw]
    · rw [if_neg heq, if_neg heq]
  have hassemble := h.assemble r.fieldNames_nodup (fun s _ => hget s)
    (fun _ slot => .missingField slot.name) 0
  simp only [read, bind_eq_ok_iff, pure_eq_ok_iff]
  exact ⟨_, hentries, fs, hassemble, rfl⟩

/-! ## The pieces of a record -/

namespace Reads

variable (name : String) {shape item : Shape}

/-- An optional field that holds a canonical tree other than null. -/
theorem optional {v : Option Value} (h : ∀ a, v = some a → a ≠ .null ∧ shape.read a = .ok a) :
    Reads [.optional name shape] (Entries.optional name v) (Entries.optional name v) := by
  cases v with
  | none => exact skip (.inl rfl) nil
  | some a =>
    obtain ⟨hnull, hread⟩ := h a rfl
    refine put ⟨hread, ?_, nofun⟩ nil
    cases a <;> first | rfl | exact absurd rfl hnull

/-- An optional field that holds any tree other than null. -/
theorem optionalTree {v : Option Value} (h : v ≠ some .null) :
    Reads [.optional name .anything] (Entries.optional name v) (Entries.optional name v) :=
  optional name fun a ha => ⟨fun hnull => h (hnull ▸ ha), read_anything a⟩

/-- An optional text. -/
theorem optionalText (s : Option String) :
    Reads [.optional name .text] (Entries.optionalText name s) (Entries.optionalText name s) := by
  refine optional name fun a ha => ?_
  obtain ⟨t, -, rfl⟩ := Option.map_eq_some_iff.mp ha
  exact ⟨nofun, read_text t⟩

/-- An optional truth value. -/
theorem optionalFlag (b : Option Bool) :
    Reads [.optional name .flag] (Entries.optionalFlag name b) (Entries.optionalFlag name b) := by
  refine optional name fun a ha => ?_
  obtain ⟨t, -, rfl⟩ := Option.map_eq_some_iff.mp ha
  exact ⟨nofun, read_flag t⟩

/-- An optional integer. -/
theorem optionalInt (i : Option Int64) :
    Reads [.optional name .integer] (Entries.optional name (i.map .int))
      (Entries.optional name (i.map .int)) := by
  refine optional name fun a ha => ?_
  obtain ⟨t, -, rfl⟩ := Option.map_eq_some_iff.mp ha
  exact ⟨nofun, read_integer t⟩

/-- A list that is not written when empty. -/
theorem listed {vs ws : List Value} (h : List.Forall₂ (fun v w => item.read v = .ok w) vs ws) :
    Reads [.list name item] (Entries.listed name vs) (Entries.listed name ws) := by
  cases h with
  | nil => exact skip (.inr rfl) nil
  | @cons v w vs ws hv hvs =>
    refine put ⟨?_, rfl, nofun⟩ nil
    exact read_listOf_eq_ok_iff.mpr ⟨v :: vs, w :: ws, rfl, rfl, List.Forall₂.cons hv hvs⟩

/-- A list of canonical items that is not written when empty. -/
theorem listedMap {α : Type} {f : α → Value} {xs : List α}
    (h : ∀ x ∈ xs, item.read (f x) = .ok (f x)) :
    Reads [.list name item] (Entries.listed name (xs.map f)) (Entries.listed name (xs.map f)) := by
  refine listed name ?_
  rw [List.forall₂_same]
  intro v hv
  obtain ⟨x, hx, rfl⟩ := List.mem_map.mp hv
  exact h x hx

/-- A list of texts. -/
theorem listedTexts (xs : List String) :
    Reads [.list name .text] (Entries.listedTexts name xs) (Entries.listedTexts name xs) :=
  listedMap name fun x _ => read_text x

/-- A list of integers. -/
theorem listedInts (xs : List Int64) :
    Reads [.list name .integer] (Entries.listedInts name xs) (Entries.listedInts name xs) :=
  listedMap name fun x _ => read_integer x

/-- A list of mappings. -/
theorem listedMappings (xs : List Mapping) :
    Reads [.list name .mapping] (Entries.listedMappings name xs)
      (Entries.listedMappings name xs) :=
  listedMap name fun x _ => read_mapping x

/-- A field that has to be present. -/
theorem required {v w : Value} (h : shape.read v = .ok w) :
    Reads [.required name shape] [(name, v)] [(name, w)] :=
  put ⟨h, rfl, nofun⟩ nil

/-- A field with a default, which is always written. -/
theorem defaulted {v w : Value} (default : Value) (h : shape.read v = .ok w) :
    Reads [.defaulted name shape default] [(name, v)] [(name, w)] :=
  put ⟨h, rfl, nofun⟩ nil

end Reads

/-! ## What the fields of a record hold -/

/-- Entries that were read belong to fields, by whose shape they were read. -/
theorem mem_of_readEntries {r : RecordKind} {es vs : Mapping} (h : readEntries r es = .ok vs)
    {key : String} {u : Value} (hu : (key, u) ∈ vs) :
    ∃ slot ∈ r.slots, slot.name = key ∧
      ∃ v, slot.shape.read v = .ok u ∧ absent slot v = false := by
  induction es generalizing vs with
  | nil =>
    simp only [readEntries, Except.ok.injEq] at h
    simp [← h] at hu
  | cons e es ih =>
    obtain ⟨k, v⟩ := e
    rw [readEntries] at h
    split at h
    · cases h
    next slot hslot =>
    split at h
    · exact ih h hu
    next habs =>
      simp only [bind_eq_ok_iff, pure_eq_ok_iff, within_eq_ok_iff] at h
      obtain ⟨w, hw, gs, hgs, rfl⟩ := h
      rcases List.mem_cons.mp hu with heq | hu
      · cases heq
        exact ⟨slot, List.mem_of_find?_eq_some hslot, by simpa using List.find?_some hslot,
          v, hw, by simpa using habs⟩
      · exact ih hgs hu

/-- The same for entries that were read by position. -/
theorem mem_of_readPositions {slots : List Slot} {i : Nat} {items : List Value} {vs : Mapping}
    (h : readPositions i slots items = .ok vs) {key : String} {u : Value}
    (hu : (key, u) ∈ vs) :
    ∃ slot ∈ slots, slot.name = key ∧
      ∃ v, slot.shape.read v = .ok u ∧ absent slot v = false := by
  induction slots generalizing i items vs with
  | nil =>
    simp only [readPositions, Except.ok.injEq] at h
    simp [← h] at hu
  | cons slot slots ih =>
    have lift {slot' : Slot} (hs : slot' ∈ slots) : slot' ∈ slot :: slots :=
      List.mem_cons_of_mem _ hs
    cases items with
    | nil =>
      simp only [readPositions, Except.ok.injEq] at h
      simp [← h] at hu
    | cons v items =>
      rw [readPositions] at h
      split at h
      · obtain ⟨slot', hs, hrest⟩ := ih h hu
        exact ⟨slot', lift hs, hrest⟩
      next habs =>
        simp only [bind_eq_ok_iff, pure_eq_ok_iff, within_eq_ok_iff] at h
        obtain ⟨w, hw, gs, hgs, rfl⟩ := h
        rcases List.mem_cons.mp hu with heq | hu
        · cases heq
          exact ⟨slot, List.mem_cons_self .., rfl, v, hw, by simpa using habs⟩
        · obtain ⟨slot', hs, hrest⟩ := ih hgs hu
          exact ⟨slot', lift hs, hrest⟩

/-- What is put together comes from the values of the fields, or from their defaults. -/
theorem mem_of_assemble {values fs : Mapping} {missing : Nat → Slot → Cause} {i : Nat}
    {slots : List Slot} (h : assemble values missing i slots = .ok fs) {key : String} {u : Value}
    (hu : (key, u) ∈ fs) :
    ∃ slot ∈ slots, slot.name = key ∧
      ((key, u) ∈ values ∧ (slot.presence = .omittedWhenEmpty → u ≠ .sequence []) ∨
        slot.presence = .defaulted u) := by
  induction slots generalizing i fs with
  | nil =>
    simp only [assemble, Except.ok.injEq] at h
    simp [← h] at hu
  | cons slot slots ih =>
    have tail {gs : Mapping} (hgs : assemble values missing (i + 1) slots = .ok gs)
        (hu : (key, u) ∈ gs) :
        ∃ s ∈ slot :: slots, s.name = key ∧
          ((key, u) ∈ values ∧ (s.presence = .omittedWhenEmpty → u ≠ .sequence []) ∨
            s.presence = .defaulted u) := by
      obtain ⟨s, hs, hrest⟩ := ih hgs hu
      exact ⟨s, List.mem_cons_of_mem _ hs, hrest⟩
    rw [assemble] at h
    split at h
    · cases h
    · exact tail h hu
    · exact tail h hu
    · exact tail h hu
    next d hp hnone =>
      simp only [bind_eq_ok_iff, pure_eq_ok_iff] at h
      obtain ⟨gs, hgs, rfl⟩ := h
      rcases List.mem_cons.mp hu with heq | hu
      · cases heq
        exact ⟨slot, List.mem_cons_self .., rfl, .inr hp⟩
      · exact tail hgs hu
    next w hw hempty =>
      simp only [bind_eq_ok_iff, pure_eq_ok_iff] at h
      obtain ⟨gs, hgs, rfl⟩ := h
      rcases List.mem_cons.mp hu with heq | hu
      · cases heq
        exact ⟨slot, List.mem_cons_self .., rfl,
          .inl ⟨Entries.mem_of_get? hw, fun hp hnil => hempty hp hnil⟩⟩
      · exact tail hgs hu

/-- Every field of a record that was read holds what its slot takes, or its default. -/
theorem get?_of_read_record {r : RecordKind} {v w : Value} (h : (record r).read v = .ok w) :
    ∃ fs, w = .mapping fs ∧ ∀ slot ∈ r.slots, ∀ u, Entries.get? fs slot.name = some u →
      (∃ v, slot.Takes v u) ∨ slot.presence = .defaulted u := by
  -- Names are distinct, so that the slot a value was read for is the one that is asked for.
  have same {slot slot' : Slot} (hs : slot ∈ r.slots) (hs' : slot' ∈ r.slots)
      (hname : slot'.name = slot.name) : slot' = slot := by
    have h' := RecordKind.slot?_name hs'
    rw [hname, RecordKind.slot?_name hs] at h'
    exact (Option.some.inj h').symm
  -- Whether a record was written by name or by position, its values were read for its fields.
  have holds {values fs : Mapping} {missing : Nat → Slot → Cause}
      (hvalues : ∀ key u, (key, u) ∈ values → ∃ slot ∈ r.slots, slot.name = key ∧
        ∃ v, slot.shape.read v = .ok u ∧ absent slot v = false)
      (hfs : assemble values missing 0 r.slots = .ok fs) :
      ∀ slot ∈ r.slots, ∀ u, Entries.get? fs slot.name = some u →
        (∃ v, slot.Takes v u) ∨ slot.presence = .defaulted u := by
    intro slot hs u hu
    obtain ⟨slot', hs', hname, hmem | hdefault⟩ := mem_of_assemble hfs (Entries.mem_of_get? hu)
    · obtain rfl := same hs hs' hname
      obtain ⟨hmem, hempty⟩ := hmem
      obtain ⟨slot'', hs'', hname', v, hread, habs⟩ := hvalues _ u hmem
      obtain rfl := same hs hs'' hname'
      exact .inl ⟨v, hread, habs, hempty⟩
    · obtain rfl := same hs hs' hname
      exact .inr hdefault
  cases v with
  | mapping es =>
    simp only [read, bind_eq_ok_iff, pure_eq_ok_iff] at h
    obtain ⟨values, hvalues, fs, hfs, rfl⟩ := h
    exact ⟨fs, rfl, holds (fun _ _ hu => mem_of_readEntries hvalues hu) hfs⟩
  | sequence items =>
    rw [read] at h
    simp only [bind_eq_ok_iff] at h
    obtain ⟨values, hvalues, fs, hfs, h⟩ := h
    split at h
    · cases h
    · obtain rfl := pure_eq_ok_iff.mp h
      exact ⟨fs, rfl, holds (fun _ _ hu => mem_of_readPositions hvalues hu) hfs⟩
  | _ => simp [read] at h

/-- A field of a canonical record that has no default holds what its slot takes. -/
theorem takes_of_read_record {r : RecordKind} {v : Value} {fs : Mapping}
    (h : (record r).read v = .ok (.mapping fs)) (slot : Slot) (hslot : slot ∈ r.slots)
    (hdefault : ∀ d, slot.presence ≠ .defaulted d) {u : Value}
    (hu : Entries.get? fs slot.name = some u) : ∃ v, slot.Takes v u := by
  obtain ⟨fs', heq, hholds⟩ := get?_of_read_record h
  obtain rfl : fs = fs' := by simpa using heq
  exact (hholds slot hslot u hu).resolve_right (hdefault u)

/-- The items under a field of a canonical record that holds a list were read one by one. -/
theorem read_of_mem_itemsAt {r : RecordKind} {v : Value} {fs : Mapping}
    (h : (record r).read v = .ok (.mapping fs)) (name : String) (item : Shape)
    (hslot : .list name item ∈ r.slots) {w : Value} (hw : w ∈ (Value.mapping fs).itemsAt name) :
    ∃ v', item.read v' = .ok w := by
  have hget : (Value.mapping fs).itemsAt name =
      ((Entries.get? fs name).bind Value.sequence?).getD [] := rfl
  rw [hget] at hw
  match hu : Entries.get? fs name with
  | none => simp [hu] at hw
  | some u =>
    rw [hu] at hw
    obtain ⟨v', hv⟩ := takes_of_read_record h _ hslot nofun hu
    -- Of all trees only a sequence has items.
    match u with
    | .sequence ws => exact read_of_mem_listOf hv.read hw
    | .null | .bool _ | .int _ | .float _ | .string _ | .mapping _ => simp [Value.sequence?] at hw

/-- A field for any tree holds no null in a canonical record. -/
theorem ne_null_of_read_record {r : RecordKind} {v : Value} {fs : Mapping}
    (h : (record r).read v = .ok (.mapping fs)) (name : String)
    (hslot : .optional name .anything ∈ r.slots) : Entries.get? fs name ≠ some .null := by
  intro hnull
  obtain ⟨u, hread, hpresent, -⟩ := takes_of_read_record h _ hslot nofun hnull
  -- A tree that may be anything is kept, so that a null would have been an absent field.
  have hu : u = .null := by
    rw [Slot.optional, read] at hread
    exact Except.ok.inj hread
  rw [hu] at hpresent
  cases hpresent

end Shape

end CanonicalCwl
