import CanonicalCwl.Proofs.Shape.Assembly

/-!
# What Reading Keeps

Reading a tree by its shape keeps all that is in it. `Shape.tidy` says what little changes, and
it keeps also what reading would not know: keys that are no field, and trees of another kind.

- `Shape.tidy`: null in place of an absent field and empty lists are left out, fields that are
  always written are put in, and integers in the place of floats are floats.
- `Shape.ByName`: no record is written by position.
- `Shape.Alike`: two trees are the same but for the order of the fields of their records.
- `Shape.alike_of_read`: the canonical form of a tree is the tidy one, but for that order.
-/

namespace CanonicalCwl

open Result

/-- Whether a field with this value need not be written: an optional one with null, and a list
that is empty and is not written when empty. -/
def Slot.dispensable (slot : Slot) (v : Value) : Bool :=
  match slot.presence, v with
  | .optional, .null | .omittedWhenEmpty, .sequence [] => true
  | _, _ => false

/-- There are two ways in which a field need not be written. -/
theorem Slot.dispensable_eq_true_iff {slot : Slot} {v : Value} :
    slot.dispensable v = true ↔
      slot.presence = .optional ∧ v = .null ∨
        slot.presence = .omittedWhenEmpty ∧ v = .sequence [] := by
  rw [dispensable.eq_def]
  split <;> simp_all

/-- A field that stands for an absent one need not be written. -/
theorem Slot.present_of_dispensable_eq_false {slot : Slot} {v : Value}
    (h : slot.dispensable v = false) : Shape.absent slot v = false := by
  rw [Shape.absent.eq_def]
  split
  next hp => simp [dispensable, hp] at h
  · rfl

/-- What is written for a field that is absent. -/
def Slot.default? (slot : Slot) : Option Value :=
  match slot.presence with
  | .defaulted d => some d
  | _ => none

namespace Shape

/-! ## What little changes -/

/-- The fields that are written also if they are absent, with their empty defaults. -/
def alwaysWritten : RecordKind → Mapping
  | .expressionTool => [("expression", .string "")]
  | .graph => [("graph", .sequence [])]
  | .recordType => [("name", .string ""), ("fields", .sequence [])]
  | .enumType => [("name", .string "")]
  | _ => []

/-- The fields that are written although the record leaves them out. -/
def defaults (r : RecordKind) (es : Mapping) : Mapping :=
  (alwaysWritten r).filter fun e => !Entries.contains es e.1

mutual

/-- The tree without the fields that need not be written, with those that are always written, and
with floats in the place of floats. All else is kept. -/
def tidy : Shape → Value → Value
  | real, .int i => .float (Binary64.ofInt i)
  | listOf item, .sequence items => .sequence (tidyItems item items)
  | record r, .mapping es => .mapping (tidyEntries r es ++ defaults r es)
  | choice c, .mapping es => .mapping (tidyArms c es)
  | _, v => v

/-- The items of a list, tidy. -/
def tidyItems (item : Shape) : List Value → List Value
  | [] => []
  | v :: rest => tidy item v :: tidyItems item rest

/-- The entries of a record, tidy; a key that is no field keeps its value. -/
def tidyEntries (r : RecordKind) : List (String × Value) → Mapping
  | [] => []
  | (k, v) :: rest =>
      match r.slot? k with
      | some slot =>
          if slot.dispensable v then tidyEntries r rest
          else (k, tidy slot.shape v) :: tidyEntries r rest
      | none => (k, v) :: tidyEntries r rest

/-- The entries of an alternative, tidy; a key that is no arm keeps its value. -/
def tidyArms (c : ChoiceKind) : List (String × Value) → Mapping
  | [] => []
  | (k, v) :: rest =>
      match Entries.get? c.arms k with
      | some s => (k, tidy s v) :: tidyArms c rest
      | none => (k, v) :: tidyArms c rest

end

mutual

/-- No record in the tree is written by position. -/
def ByName : Shape → Value → Prop
  | listOf item, .sequence items => ByNameItems item items
  | record r, .mapping es => ByNameEntries r es
  | record _, .sequence _ => False
  | choice c, .mapping es => ByNameArms c es
  | _, _ => True

/-- No record in the items of a list is written by position. -/
def ByNameItems (item : Shape) : List Value → Prop
  | [] => True
  | v :: rest => ByName item v ∧ ByNameItems item rest

/-- No record in the fields of a record is written by position. -/
def ByNameEntries (r : RecordKind) : List (String × Value) → Prop
  | [] => True
  | (k, v) :: rest =>
      (match r.slot? k with
        | some slot => ByName slot.shape v
        | none => True) ∧ ByNameEntries r rest

/-- No record in the arms of an alternative is written by position. -/
def ByNameArms (c : ChoiceKind) : List (String × Value) → Prop
  | [] => True
  | (k, v) :: rest =>
      (match Entries.get? c.arms k with
        | some s => ByName s v
        | none => True) ∧ ByNameArms c rest

end

mutual

/-- The trees are the same but for the order of the fields of their records. -/
def Alike : Shape → Value → Value → Prop
  | listOf item, .sequence vs, .sequence ws => AlikeItems item vs ws
  | record r, .mapping es, .mapping fs => ∃ fs', fs'.Perm fs ∧ AlikeEntries r es fs'
  | choice c, .mapping es, .mapping fs => AlikeArms c es fs
  | _, v, w => v = w

/-- The items of two lists are alike, one by one. -/
def AlikeItems (item : Shape) : List Value → List Value → Prop
  | [], [] => True
  | v :: vs, w :: ws => Alike item v w ∧ AlikeItems item vs ws
  | _, _ => False

/-- The entries of two records are alike, one by one. -/
def AlikeEntries (r : RecordKind) : List (String × Value) → List (String × Value) → Prop
  | [], [] => True
  | (k, v) :: es, (l, w) :: fs =>
      k = l ∧ (match r.slot? k with
        | some slot => Alike slot.shape v w
        | none => v = w) ∧ AlikeEntries r es fs
  | _, _ => False

/-- The entries of two alternatives are alike, one by one. -/
def AlikeArms (c : ChoiceKind) : List (String × Value) → List (String × Value) → Prop
  | [], [] => True
  | (k, v) :: es, (l, w) :: fs =>
      k = l ∧ (match Entries.get? c.arms k with
        | some s => Alike s v w
        | none => v = w) ∧ AlikeArms c es fs
  | _, _ => False

end

/-! ## Trees that are alike -/

mutual

/-- A tree is like itself. -/
theorem Alike.refl : ∀ (s : Shape) (v : Value), Alike s v v
  | s, .sequence vs => by
      cases s with
      | listOf item =>
        rw [Alike]
        exact AlikeItems.refl item vs
      | _ => simp [Alike]
  | s, .mapping es => by
      cases s with
      | record r =>
        rw [Alike]
        exact ⟨es, .refl es, AlikeEntries.refl r es⟩
      | choice c =>
        rw [Alike]
        exact AlikeArms.refl c es
      | _ => simp [Alike]
  | s, .null | s, .bool _ | s, .int _ | s, .float _ | s, .string _ => by
      cases s <;> simp [Alike]

/-- A list is like itself. -/
theorem AlikeItems.refl : ∀ (item : Shape) (vs : List Value), AlikeItems item vs vs
  | _, [] => by simp [AlikeItems]
  | item, v :: vs => by
      rw [AlikeItems]
      exact ⟨Alike.refl item v, AlikeItems.refl item vs⟩

/-- The entries of a record are like themselves. -/
theorem AlikeEntries.refl : ∀ (r : RecordKind) (es : List (String × Value)), AlikeEntries r es es
  | _, [] => by simp [AlikeEntries]
  | r, (k, v) :: es => by
      rw [AlikeEntries]
      refine ⟨rfl, ?_, AlikeEntries.refl r es⟩
      split
      · exact Alike.refl _ v
      · rfl

/-- The entries of an alternative are like themselves. -/
theorem AlikeArms.refl : ∀ (c : ChoiceKind) (es : List (String × Value)), AlikeArms c es es
  | _, [] => by simp [AlikeArms]
  | c, (k, v) :: es => by
      rw [AlikeArms]
      refine ⟨rfl, ?_, AlikeArms.refl c es⟩
      split
      · exact Alike.refl _ v
      · rfl

end

/-! ## The fields of a record -/

section Record

variable {r : RecordKind} {es fs values : Mapping} {slot : Slot} {key : String} {v w : Value}

/-- What becomes of one entry of a record. -/
def tidyEntry (r : RecordKind) (k : String) (v : Value) : Option Value :=
  match r.slot? k with
  | some slot => if slot.dispensable v then none else some (tidy slot.shape v)
  | none => some v

/-- The fields that are always written are those with a default. -/
theorem alwaysWritten_eq_ofSlots (r : RecordKind) :
    alwaysWritten r = Entries.ofSlots r.slots Slot.default? := by
  cases r <;> rfl

/-- The fields with a default are written where they are absent. -/
theorem defaults_eq_ofSlots (r : RecordKind) (es : Mapping) :
    defaults r es = Entries.ofSlots r.slots fun slot =>
      if Entries.contains es slot.name then none else slot.default? := by
  rw [defaults, alwaysWritten_eq_ofSlots]
  induction r.slots with
  | nil => rfl
  | cons slot slots ih =>
    rw [Entries.ofSlots_cons, Entries.ofSlots_cons, List.filter_append, ih]
    cases hes : Entries.contains es slot.name <;> cases slot.default? <;>
      simp [Entries.optional, hes]

/-- The entries of a record are made tidy one by one. -/
theorem tidyEntries_eq_filterMap (r : RecordKind) (es : Mapping) :
    tidyEntries r es = es.filterMap fun e => (tidyEntry r e.1 e.2).map (e.1, ·) := by
  induction es with
  | nil => rfl
  | cons e es ih =>
    obtain ⟨k, v⟩ := e
    rw [tidyEntries, List.filterMap_cons, tidyEntry, ih]
    match r.slot? k with
    | none => rfl
    | some slot => cases hd : slot.dispensable v <;> simp [hd]

/-- A value that was read belongs to an entry that does not stand for an absent field. -/
theorem exists_mem_of_readEntries (h : readEntries r es = .ok values) (hw : (key, w) ∈ values) :
    ∃ v slot, (key, v) ∈ es ∧ r.slot? key = some slot ∧ absent slot v = false := by
  induction es generalizing values with
  | nil =>
    obtain rfl := Except.ok.inj h
    simp at hw
  | cons e es ih =>
    obtain ⟨k, u⟩ := e
    have later {values : Mapping} (h : readEntries r es = .ok values) (hw : (key, w) ∈ values) :
        ∃ v slot, (key, v) ∈ (k, u) :: es ∧ r.slot? key = some slot ∧ absent slot v = false := by
      obtain ⟨v, slot, hv, hslot⟩ := ih h hw
      exact ⟨v, slot, List.mem_cons_of_mem _ hv, hslot⟩
    rw [readEntries] at h
    split at h
    · cases h
    next slot hslot =>
    split at h
    · exact later h hw
    next hpresent =>
      simp only [bind_eq_ok_iff, pure_eq_ok_iff, within_eq_ok_iff] at h
      obtain ⟨u', -, gs, hgs, rfl⟩ := h
      rcases List.mem_cons.mp hw with heq | hw
      · obtain ⟨rfl, rfl⟩ := Prod.mk.inj heq
        exact ⟨u, slot, List.mem_cons_self .., hslot, by simpa using hpresent⟩
      · exact later hgs hw

/-- The entries of a record and the defaults of its absent fields, tidy. -/
def tidyFields (r : RecordKind) (es : Mapping) : Mapping := tidyEntries r es ++ defaults r es

/-- What a field of a tidy record holds. -/
theorem get?_tidyFields (hes : Entries.Distinct es) (hslot : slot ∈ r.slots) :
    Entries.get? (tidyFields r es) slot.name =
      match Entries.get? es slot.name with
      | some v => if slot.dispensable v then none else some (tidy slot.shape v)
      | none => slot.default? := by
  rw [tidyFields, Entries.get?_append, tidyEntries_eq_filterMap, Entries.get?_filterMap hes,
    defaults_eq_ofSlots, Entries.get?_ofSlots r.fieldNames_nodup hslot, Entries.contains]
  match hget : Entries.get? es slot.name with
  | some v =>
    rw [Option.bind_some, tidyEntry, RecordKind.slot?_name hslot]
    simp
  | none => simp

/-- A tidy record has no key twice. -/
theorem distinct_tidyFields (hes : Entries.Distinct es) : Entries.Distinct (tidyFields r es) := by
  have hentries : (Entries.keys (tidyEntries r es)).Sublist (Entries.keys es) := by
    rw [tidyEntries_eq_filterMap]
    exact Entries.keys_filterMap_sublist ..
  rw [tidyFields, Entries.Distinct, Entries.keys_append, defaults_eq_ofSlots, List.nodup_append]
  refine ⟨hes.sublist hentries, ?_, fun k hk k' hk' heq => ?_⟩
  · exact r.fieldNames_nodup.sublist Entries.keys_ofSlots_sublist
  · -- Only what is absent is put in.
    subst heq
    obtain ⟨slot, hslot, rfl⟩ := List.mem_map.mp (Entries.keys_ofSlots_sublist.subset hk')
    have hmem := Entries.isSome_get?_iff.mpr (hentries.subset hk)
    rw [← Entries.isSome_get?_iff, Entries.get?_ofSlots r.fieldNames_nodup hslot,
      Entries.contains, if_pos hmem] at hk'
    cases hk'

/-- Every entry that was read belongs to a field. -/
theorem slot?_of_readEntries (h : readEntries r es = .ok values) (hkey : key ∈ Entries.keys es) :
    ∃ slot, r.slot? key = some slot := by
  induction es generalizing values with
  | nil => simp [Entries.keys] at hkey
  | cons e es ih =>
    obtain ⟨k, v⟩ := e
    rw [readEntries] at h
    split at h
    · cases h
    next slot hslot =>
    rcases List.mem_cons.mp hkey with rfl | hkey
    · exact ⟨slot, hslot⟩
    split at h
    · exact ih h hkey
    · simp only [bind_eq_ok_iff] at h
      obtain ⟨_, -, gs, hgs, -⟩ := h
      exact ih hgs hkey

/-- A field that is not written when empty holds a list. -/
theorem shape_of_omittedWhenEmpty (hslot : slot ∈ r.slots)
    (hp : slot.presence = .omittedWhenEmpty) : ∃ item, slot.shape = .listOf item := by
  have hlist : ∀ slot ∈ r.slots, slot.presence = .omittedWhenEmpty →
      ∃ item, slot.shape = .listOf item := by
    cases r <;> simp [RecordKind.slots, RecordKind.headerSlots, RecordKind.footerSlots,
      Slot.optional, Slot.list, Slot.required, Slot.defaulted]
  exact hlist slot hslot hp

/-- The entries of fields are alike if their values are. -/
theorem alikeEntries_ofSlots {slots : List Slot} {f g : Slot → Option Value}
    (hslots : ∀ slot ∈ slots, r.slot? slot.name = some slot)
    (h : ∀ slot ∈ slots, f slot = none ∧ g slot = none ∨
      ∃ v w, f slot = some v ∧ g slot = some w ∧ Alike slot.shape v w) :
    AlikeEntries r (Entries.ofSlots slots f) (Entries.ofSlots slots g) := by
  induction slots with
  | nil => simp [AlikeEntries]
  | cons slot slots ih =>
    have hrest := ih (fun s hs => hslots s (List.mem_cons_of_mem _ hs))
      fun s hs => h s (List.mem_cons_of_mem _ hs)
    rw [Entries.ofSlots_cons, Entries.ofSlots_cons]
    rcases h slot (List.mem_cons_self ..) with ⟨hf, hg⟩ | ⟨v, w, hf, hg, hvw⟩
    · rwa [hf, hg]
    · rw [hf, hg]
      show AlikeEntries r ((slot.name, v) :: _) ((slot.name, w) :: _)
      rw [AlikeEntries, hslots slot (List.mem_cons_self ..)]
      exact ⟨rfl, hvw, hrest⟩

/-- No value was read for a field without an entry that is more than absence. -/
theorem get?_values_eq_none (hes : Entries.Distinct es) (hvalues : readEntries r es = .ok values)
    (hslot : slot ∈ r.slots)
    (h : ∀ v, Entries.get? es slot.name = some v → absent slot v = true) :
    Entries.get? values slot.name = none := by
  rw [← Option.not_isSome_iff_eq_none, Option.isSome_iff_exists]
  rintro ⟨w, hw⟩
  obtain ⟨v, slot', hv, hslot', hpresent⟩ :=
    exists_mem_of_readEntries hvalues (Entries.mem_of_get? hw)
  obtain rfl := Option.some.inj ((RecordKind.slot?_name hslot).symm.trans hslot')
  rw [h v ((Entries.mem_iff_get? hes).mp hv)] at hpresent
  cases hpresent

/-- Nothing is written for an optional field that is not there or null. -/
theorem get?_eq_none_of_read_record (hes : Entries.Distinct es)
    (h : (record r).read (.mapping es) = .ok (.mapping fs)) (hslot : slot ∈ r.slots)
    (hp : slot.presence = .optional)
    (hnull : ∀ v, Entries.get? es slot.name = some v → v = .null) :
    Entries.get? fs slot.name = none := by
  simp only [read, bind_eq_ok_iff, pure_eq_ok_iff, Value.mapping.injEq] at h
  obtain ⟨values, hvalues, fs', hfs, rfl⟩ := h
  have habsent : ∀ v, Entries.get? es slot.name = some v → absent slot v = true := by
    intro v hv
    simp [hnull v hv, absent, hp]
  rw [eq_ofSlots_of_assemble hfs, Entries.get?_ofSlots r.fieldNames_nodup hslot,
    get?_values_eq_none hes hvalues hslot habsent, Slot.written, hp]

/-- Nothing is written for a field that holds what may be left out. -/
theorem written_of_dispensable (hes : Entries.Distinct es)
    (hvalues : readEntries r es = .ok values) (hslot : slot ∈ r.slots)
    (hget : Entries.get? es slot.name = some v) (hd : slot.dispensable v = true) :
    slot.written (Entries.get? values slot.name) = none := by
  rcases Slot.dispensable_eq_true_iff.mp hd with ⟨hp, rfl⟩ | ⟨hp, rfl⟩
  · -- An optional field that is null is absent.
    rw [get?_values_eq_none hes hvalues hslot (by simp [hget, absent, hp]), Slot.written, hp]
  · -- An empty list is read as an empty list.
    obtain ⟨item, hshape⟩ := shape_of_omittedWhenEmpty hslot hp
    obtain ⟨w, hw, hget'⟩ := get?_of_readEntries hvalues (RecordKind.slot?_name hslot) hget
      (by simp [absent, hp])
    rw [hshape] at hw
    obtain ⟨vs, ws, heq, rfl, hitems⟩ := read_listOf_eq_ok_iff.mp hw
    obtain rfl := Value.sequence.inj heq
    cases hitems
    rw [hget', Slot.written, hp]
    simp

/-- What was read for a field is written unless it may be left out. -/
theorem written_eq_some (hslot : slot ∈ r.slots) (hd : slot.dispensable v = false)
    (hw : slot.shape.read v = .ok w) : slot.written (some w) = some w := by
  rw [Slot.written]
  cases hp : slot.presence with
  | omittedWhenEmpty =>
    -- A list with items is read as a list with items.
    obtain ⟨item, hshape⟩ := shape_of_omittedWhenEmpty hslot hp
    rw [hshape] at hw
    obtain ⟨vs, ws, rfl, rfl, hitems⟩ := read_listOf_eq_ok_iff.mp hw
    cases hitems with
    | nil => simp [Slot.dispensable, hp] at hd
    | cons => simp
  | _ => simp

/-- What is written for a field is like what the tidy record holds. -/
theorem alike_written (hes : Entries.Distinct es) (hvalues : readEntries r es = .ok values)
    (hslot : slot ∈ r.slots)
    (halike : ∀ v w, Entries.get? es slot.name = some v → slot.shape.read v = .ok w →
      Alike slot.shape w (tidy slot.shape v)) :
    slot.written (Entries.get? values slot.name) = none ∧
        Entries.get? (tidyFields r es) slot.name = none ∨
      ∃ w u, slot.written (Entries.get? values slot.name) = some w ∧
        Entries.get? (tidyFields r es) slot.name = some u ∧ Alike slot.shape w u := by
  rw [get?_tidyFields hes hslot]
  match hget : Entries.get? es slot.name with
  | none =>
    rw [get?_values_eq_none hes hvalues hslot (by simp [hget]), Slot.written, Slot.default?]
    cases slot.presence with
    | defaulted d => exact .inr ⟨d, d, rfl, rfl, Alike.refl _ d⟩
    | _ => exact .inl ⟨by simp, rfl⟩
  | some v =>
    cases hd : slot.dispensable v with
    | true => exact .inl ⟨written_of_dispensable hes hvalues hslot hget hd, by simp [hd]⟩
    | false =>
      obtain ⟨w, hw, hget'⟩ := get?_of_readEntries hvalues (RecordKind.slot?_name hslot) hget
        (Slot.present_of_dispensable_eq_false hd)
      refine .inr ⟨w, tidy slot.shape v, ?_, by simp [hd], halike v w hget hw⟩
      rw [hget', written_eq_some hslot hd hw]

/-- The canonical form of a record is like the tidy record. -/
theorem alike_record (hes : Entries.Distinct es) (hvalues : readEntries r es = .ok values)
    (hfs : fs = Entries.ofSlots r.slots fun slot => slot.written (Entries.get? values slot.name))
    (halike : ∀ slot ∈ r.slots, ∀ v w, Entries.get? es slot.name = some v →
      slot.shape.read v = .ok w → Alike slot.shape w (tidy slot.shape v)) :
    Alike (record r) (.mapping fs) (.mapping (tidyFields r es)) := by
  rw [Alike]
  refine ⟨Entries.ofSlots r.slots fun slot => Entries.get? (tidyFields r es) slot.name, ?_, ?_⟩
  · -- Both are the fields of the tidy record, in order and as they were written.
    refine Entries.perm_of_get?_eq (r.fieldNames_nodup.sublist Entries.keys_ofSlots_sublist)
      (distinct_tidyFields hes) fun key => ?_
    by_cases hkey : key ∈ r.slots.map (·.name)
    · obtain ⟨slot, hslot, rfl⟩ := List.mem_map.mp hkey
      rw [Entries.get?_ofSlots r.fieldNames_nodup hslot]
    · rw [Entries.get?_ofSlots_eq_none hkey, eq_comm, tidyFields, Entries.get?_append,
        defaults_eq_ofSlots, Entries.get?_ofSlots_eq_none hkey, Option.or_none,
        tidyEntries_eq_filterMap, Entries.get?_filterMap hes, Option.bind_eq_none_iff]
      intro v hv
      obtain ⟨slot, hslot⟩ := slot?_of_readEntries hvalues
        (Entries.isSome_get?_iff.mp (by rw [hv]; rfl))
      have hname : slot.name = key := by simpa using List.find?_some hslot
      exact absurd (List.mem_map.mpr ⟨slot, List.mem_of_find?_eq_some hslot, hname⟩) hkey
  · rw [hfs]
    exact alikeEntries_ofSlots (fun slot hslot => RecordKind.slot?_name hslot) fun slot hslot =>
      alike_written hes hvalues hslot (halike slot hslot)

end Record

/-! ## The whole tree -/

mutual

/-- The canonical form of a tree is like the tidy tree: nothing in it is lost. -/
theorem alike_of_read : ∀ (v : Value) {s : Shape} {w : Value},
    v.WellFormed → ByName s v → s.read v = .ok w → Alike s w (tidy s v)
  | .sequence items, s, w, hwf, hname, h => by
      cases s with
      | anything =>
        obtain rfl := Except.ok.inj h
        simp [Alike, tidy]
      | listOf item =>
        obtain ⟨vs, ws, heq, rfl, hitems⟩ := read_listOf_eq_ok_iff.mp h
        obtain rfl := Value.sequence.inj heq
        rw [Value.WellFormed] at hwf
        rw [ByName] at hname
        rw [tidy, Alike]
        exact alikeItems_of_read items hwf hname hitems
      | record r => simp [ByName] at hname
      | _ => simp [read] at h
  | .mapping es, s, w, hwf, hname, h => by
      rw [Value.WellFormed] at hwf
      cases s with
      | anything =>
        obtain rfl := Except.ok.inj h
        simp [Alike, tidy]
      | mapping =>
        obtain rfl := Except.ok.inj h
        simp [Alike, tidy]
      | record r =>
        rw [ByName] at hname
        simp only [read, bind_eq_ok_iff, pure_eq_ok_iff] at h
        obtain ⟨values, hvalues, fs, hfs, rfl⟩ := h
        refine alike_record hwf.1 hvalues (eq_ofSlots_of_assemble hfs)
          fun slot hslot v w hv hw => ?_
        exact alike_of_get? es hwf.2 hname hv (RecordKind.slot?_name hslot) hw
      | choice c =>
        rw [ByName] at hname
        rw [tidy]
        exact alike_of_arm es hwf.2 hname h
      | _ => simp [read] at h
  | .int i, s, w, _, _, h => by
      cases s with
      | choice c =>
        obtain ⟨_, _, _, _, heq, -⟩ := read_choice_eq_ok_iff.mp h
        cases heq
      | anything | integer | real =>
        obtain rfl := Except.ok.inj h
        simp [Alike, tidy]
      | _ => simp [read] at h
  | .null, s, w, _, _, h | .bool _, s, w, _, _, h | .float _, s, w, _, _, h
  | .string _, s, w, _, _, h => by
      cases s with
      | choice c =>
        obtain ⟨_, _, _, _, heq, -⟩ := read_choice_eq_ok_iff.mp h
        cases heq
      | _ =>
        simp only [read, reduceCtorEq, Except.ok.injEq] at h <;>
          simp [Alike, tidy, h]

/-- The canonical forms of items are like the tidy items. -/
theorem alikeItems_of_read : ∀ (items : List Value) {item : Shape} {ws : List Value},
    Value.WellFormedItems items → ByNameItems item items →
      List.Forall₂ (fun v w => item.read v = .ok w) items ws →
        AlikeItems item ws (tidyItems item items)
  | [], _, _, _, _, h => by
      cases h
      simp [AlikeItems, tidyItems]
  | v :: rest, _, _, hwf, hname, h => by
      obtain ⟨w, ws, hw, hws, rfl⟩ := List.forall₂_cons_left_iff.mp h
      rw [Value.WellFormedItems] at hwf
      rw [ByNameItems] at hname
      rw [tidyItems, AlikeItems]
      exact ⟨alike_of_read v hwf.1 hname.1 hw, alikeItems_of_read rest hwf.2 hname.2 hws⟩

/-- The canonical form of an alternative is like the tidy form. -/
theorem alike_of_arm : ∀ (es : List (String × Value)) {c : ChoiceKind} {w : Value},
    Value.WellFormedEntries es → ByNameArms c es → (choice c).read (.mapping es) = .ok w →
      Alike (choice c) w (.mapping (tidyArms c es))
  | [(arm, u)], c, w, hwf, hname, h => by
      obtain ⟨arm', s, u', w', heq, hs, hw, rfl⟩ := read_choice_eq_ok_iff.mp h
      simp only [Value.mapping.injEq, List.cons.injEq, Prod.mk.injEq, and_true] at heq
      obtain ⟨rfl, rfl⟩ := heq
      rw [Value.WellFormedEntries] at hwf
      simp only [ByNameArms, hs] at hname
      have hw' := alike_of_read u hwf.1 hname.1 hw
      simp [tidyArms, Value.tagged, Alike, AlikeArms, hs, hw']
  | [], _, _, _, _, h | _ :: _ :: _, _, _, _, _, h => by
      simp [read] at h

/-- The canonical form of what a field holds is like the tidy form. -/
theorem alike_of_get? : ∀ (es : List (String × Value)) {r : RecordKind} {key : String} {v w : Value}
    {slot : Slot}, Value.WellFormedEntries es → ByNameEntries r es →
      Entries.get? es key = some v → r.slot? key = some slot → slot.shape.read v = .ok w →
        Alike slot.shape w (tidy slot.shape v)
  | [], _, _, _, _, _, _, _, hget, _, _ => by cases hget
  | (k, u) :: rest, _, _, _, _, _, hwf, hname, hget, hslot, h => by
      rw [Value.WellFormedEntries] at hwf
      rw [ByNameEntries] at hname
      rw [Entries.get?_cons] at hget
      split at hget
      next hk =>
        obtain rfl := Option.some.inj hget
        subst hk
        rw [hslot] at hname
        exact alike_of_read u hwf.1 hname.1 h
      · exact alike_of_get? rest hwf.2 hname.2 hget hslot h

end

end Shape

end CanonicalCwl
