import CanonicalCwl.Proofs.Shape.Writing

/-!
# Canonical Forms Read Again

A canonical form has the shape that it was read by, and it is its own canonical form. What reading
leaves out, puts in, moves or changes, it does once and for all, whether a record was written by
name or by position.

- `Shape.Reads.ofSlots`: fields that hold canonical values are read as they are.
- `Shape.read_eq_self_of_read`: a canonical form is read as itself.
-/

namespace CanonicalCwl

open Result

namespace Shape

/-- Only null is read as null. -/
theorem eq_null_of_read {s : Shape} {v : Value} (h : s.read v = .ok .null) : v = .null := by
  cases s with
  | listOf item =>
    obtain ⟨_, _, _, hw, -⟩ := read_listOf_eq_ok_iff.mp h
    cases hw
  | choice c =>
    obtain ⟨_, _, _, _, _, _, _, hw⟩ := read_choice_eq_ok_iff.mp h
    cases hw
  | record r =>
    obtain ⟨_, hw, -⟩ := get?_of_read_record h
    cases hw
  | anything =>
    rw [read_anything] at h
    exact Except.ok.inj h
  | _ => cases v <;> simp [read] at h

end Shape

/-- What was read for a field stands for the field itself, if it is its own canonical form. -/
theorem Slot.Takes.self {slot : Slot} {v w : Value} (h : slot.Takes v w)
    (hw : slot.shape.read w = .ok w) : slot.Takes w w := by
  refine ⟨hw, ?_, h.nonempty⟩
  -- A null that is read again was a null from the start, and then no value was read for it.
  by_cases hnull : w = .null
  · subst hnull
    obtain rfl := Shape.eq_null_of_read h.read
    exact h.present
  · rw [Shape.absent.eq_def]
    split
    · exact absurd rfl hnull
    · rfl

namespace Shape

/-- Fields that hold canonical values are read as they are. -/
theorem Reads.ofSlots {slots : List Slot} {value : Slot → Option Value}
    (hnone : ∀ slot ∈ slots, value slot = none → slot.Omissible)
    (hsome : ∀ slot ∈ slots, ∀ u, value slot = some u → slot.Takes u u) :
    Reads slots (Entries.ofSlots slots value) (Entries.ofSlots slots value) := by
  induction slots with
  | nil => exact .nil
  | cons slot slots ih =>
    have hrest := ih (fun s hs => hnone s (List.mem_cons_of_mem _ hs))
      fun s hs => hsome s (List.mem_cons_of_mem _ hs)
    rw [Entries.ofSlots_cons]
    cases hvalue : value slot with
    | none => exact .skip (hnone slot (List.mem_cons_self ..) hvalue) hrest
    | some u => exact .put (hsome slot (List.mem_cons_self ..) u hvalue) hrest

/-- A canonical record is read as itself if what its fields hold is. -/
theorem read_record_eq_self {r : RecordKind} {v : Value} {fs : Mapping}
    (h : (record r).read v = .ok (.mapping fs))
    (hfields : ∀ slot ∈ r.slots, ∀ u, Entries.get? fs slot.name = some u →
      slot.shape.read u = .ok u) :
    (record r).read (.mapping fs) = .ok (.mapping fs) := by
  have hreads : Reads r.slots fs fs := by
    rw [← ofSlots_of_read_record h]
    refine Reads.ofSlots (fun slot hslot hnone => ?_) fun slot hslot u hu => ?_
    · by_contra homissible
      obtain ⟨u, hu, -⟩ := exists_get?_of_not_omissible h slot hslot homissible
      rw [hnone] at hu
      cases hu
    · have hread := hfields slot hslot u hu
      obtain ⟨fs', heq, hholds⟩ := get?_of_read_record h
      obtain rfl := Value.mapping.inj heq
      -- A default is always written, and so it need not have been read.
      rcases hholds slot hslot u hu with ⟨v', hv⟩ | hdefault
      · exact hv.self hread
      · refine ⟨hread, ?_, fun hempty => ?_⟩
        · simp [absent, hdefault]
        · simp [hdefault] at hempty
  exact hreads.read_record

/-- A canonical form is read as itself. -/
theorem read_eq_self_of_read : ∀ (w : Value) {s : Shape} {v : Value},
    s.read v = .ok w → s.read w = .ok w := by
  intro w s v h
  cases s with
  | anything => exact read_anything w
  | text | flag | integer | real | mapping =>
    cases v <;> simp only [read, reduceCtorEq, Except.ok.injEq] at h <;> subst h <;> rfl
  | listOf item =>
    obtain ⟨vs, ws, -, hw, hitems⟩ := read_listOf_eq_ok_iff.mp h
    refine read_listOf_eq_ok_iff.mpr ⟨ws, ws, hw, hw, List.forall₂_same.mpr fun u hu => ?_⟩
    have hsize : sizeOf u < sizeOf w := by
      have := List.sizeOf_lt_of_mem hu
      simp only [hw, Value.sequence.sizeOf_spec]
      omega
    obtain ⟨v, -, hv⟩ := exists_of_mem_right hitems hu
    exact read_eq_self_of_read u hv
  | choice c =>
    obtain ⟨arm, s, _, u, -, hs, hu, hw⟩ := read_choice_eq_ok_iff.mp h
    have hsize : sizeOf u < sizeOf w := by
      simp only [hw, Value.tagged, Value.mapping.sizeOf_spec, List.cons.sizeOf_spec,
        Prod.mk.sizeOf_spec]
      omega
    rw [hw]
    exact read_tagged hs (read_eq_self_of_read u hu)
  | record r =>
    obtain ⟨fs, hw, -⟩ := get?_of_read_record h
    rw [hw] at h ⊢
    refine read_record_eq_self h fun slot hslot u hu => ?_
    have hsize : sizeOf u < sizeOf w := by
      have := Value.sizeOf_lt_of_entries_get? hu
      simp only [hw, Value.mapping.sizeOf_spec]
      omega
    obtain ⟨v, hv⟩ := read_of_get? h hslot hu
    exact read_eq_self_of_read u hv
termination_by w => sizeOf w

end Shape

end CanonicalCwl
