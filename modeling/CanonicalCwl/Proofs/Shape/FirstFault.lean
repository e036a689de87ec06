import CanonicalCwl.Proofs.Shape.Field
import CanonicalCwl.Proofs.Shape.Reading

/-!
# The First Fault of a Tree

Reading a tree by its shape stops at the first fault. The path that is reported leads to a node of
the tree, the node itself is at fault, and on each level of the path all that stands before it in
the document is read by the shape of its place.

- `Shape.FirstFault`: a mismatch is the first fault of a tree.
- `Shape.firstFault_of_read`: so is every mismatch that is reported.
-/

namespace CanonicalCwl

open Result

/-! ## Places -/

namespace Value

/-- The child that a segment leads to. -/
def child? : Value → Segment → Option Value
  | sequence items, .index i => items[i]?
  | mapping entries, .key k => Entries.get? entries k
  | _, _ => none

/-- The node that a path leads to. -/
def at? : Value → Path → Option Value
  | v, [] => some v
  | v, seg :: path => (v.child? seg).bind (at? · path)

/-- The children before the one that a segment leads to, each with the segment of its own. -/
def before : Value → Segment → List (Segment × Value)
  | sequence items, .index i => (items.take i).mapIdx fun j v => (.index j, v)
  | mapping entries, .key k => (entries.takeWhile (·.1 ≠ k)).map fun e => (.key e.1, e.2)
  | _, _ => []

/-- A path may be followed in two parts. -/
theorem at?_append (v : Value) (path path' : Path) :
    v.at? (path ++ path') = (v.at? path).bind (·.at? path') := by
  induction path generalizing v with
  | nil => rfl
  | cons seg path ih => cases h : v.child? seg <;> simp [at?, h, ih]

/-- The children of a well-formed tree are well-formed. -/
theorem WellFormed.child? {v w : Value} {seg : Segment} (h : v.WellFormed)
    (hw : v.child? seg = some w) : w.WellFormed := by
  rw [Value.child?.eq_def] at hw
  split at hw
  · rw [WellFormed, wellFormedItems_iff] at h
    exact h w (List.mem_of_getElem? hw)
  · exact h.get? hw
  · cases hw

/-- The children of a tree are smaller. -/
theorem sizeOf_lt_of_child? {v w : Value} {seg : Segment} (h : v.child? seg = some w) :
    sizeOf w < sizeOf v := by
  rw [child?.eq_def] at h
  split at h
  next items i =>
    have := List.sizeOf_lt_of_mem (List.mem_of_getElem? h)
    simp only [sequence.sizeOf_spec]
    omega
  next entries k => exact sizeOf_lt_of_get? h
  · cases h

end Value

namespace Shape

/-- The shape of the child that a segment leads to. -/
def child? : Shape → Segment → Option Shape
  | listOf item, .index _ => some item
  | record r, .key k => (r.slot? k).map (·.shape)
  | record r, .index i => r.slots[i]?.map (·.shape)
  | choice c, .key arm => Entries.get? c.arms arm
  | _, _ => none

/-- The shape of the node that a path leads to. -/
def at? : Shape → Path → Option Shape
  | s, [] => some s
  | s, seg :: path => (s.child? seg).bind (at? · path)

/-- The tree is read by the shape. -/
def Fits (s : Shape) (v : Value) : Prop := ∃ w, s.read v = .ok w

end Shape

/-- The tree is read as the field, or stands for its absence. -/
def Slot.Fits (slot : Slot) (v : Value) : Prop :=
  Shape.absent slot v = true ∨ slot.shape.Fits v

namespace Shape

/-- The tree is read as the child that a segment leads to. -/
def FitsAt : Shape → Segment → Value → Prop
  | listOf item, .index _, v => item.Fits v
  | record r, .key k, v => ∃ slot, r.slot? k = some slot ∧ slot.Fits v
  | record r, .index i, v => ∃ slot, r.slots[i]? = some slot ∧ slot.Fits v
  | choice c, .key arm, v => ∃ s, Entries.get? c.arms arm = some s ∧ s.Fits v
  | _, _, _ => False

end Shape

/-- The path to the node at fault. A bare arm is reported as the arm, which has no node. -/
def Mismatch.place (m : Mismatch) : Path :=
  match m.cause with
  | .bareArm => m.path.dropLast
  | _ => m.path

namespace Shape

/-- The node itself is at fault: the path from it to what is reported, and the cause. An unknown
field is the first one that is not in order. -/
inductive Offends : Shape → Value → Path → Cause → Prop
  | node {s : Shape} {v : Value} {cause : Cause} (hcause : cause ≠ .bareArm)
      (h : s.read v = .error ⟨[], cause⟩) : Offends s v [] cause
  | unknownField {r : RecordKind} {es : Mapping} {k : String} {v : Value}
      (hslot : r.slot? k = none) (hv : Entries.get? es k = some v)
      (hbefore : ∀ c ∈ (Value.mapping es).before (.key k), (record r).FitsAt c.1 c.2) :
      Offends (record r) (.mapping es) [.key k] (.unknownField k r.fieldNames)
  | bareArm {c : ChoiceKind} {arm : String} {s : Shape} (harm : Entries.get? c.arms arm = some s) :
      Offends (choice c) (.string arm) [.key arm] .bareArm

/-- The mismatch is the first fault of the tree. -/
structure FirstFault (s : Shape) (v : Value) (m : Mismatch) : Prop where
  /-- The path leads to a node. -/
  exists_node : ∃ w, v.at? m.place = some w
  /-- On each level of the path all that stands before it is in order. -/
  fits_before : ∀ path seg rest, m.place = path ++ seg :: rest →
    ∃ t w, s.at? path = some t ∧ v.at? path = some w ∧ ∀ c ∈ w.before seg, t.FitsAt c.1 c.2
  /-- What is reported is wrong with the node at the end of the path, or with one above it. -/
  offends : ∃ path own t w, m.path = path ++ own ∧ s.at? path = some t ∧ v.at? path = some w ∧
    t.Offends w own m.cause

/-! ## From the root to the fault -/

/-- A path leads to a node and its shape, past children that are all in order. -/
inductive Leads : Shape → Value → Path → Shape → Value → Prop
  | here (s : Shape) (v : Value) : Leads s v [] s v
  | down {s s' t : Shape} {v v' w : Value} {seg : Segment} {path : Path}
      (hs : s.child? seg = some s') (hv : v.child? seg = some v')
      (hbefore : ∀ c ∈ v.before seg, s.FitsAt c.1 c.2) (h : Leads s' v' path t w) :
      Leads s v (seg :: path) t w

variable {s t : Shape} {v w : Value} {path : Path} {m : Mismatch}

/-- A path that leads to a node is a path of the tree and of its shape. -/
theorem Leads.at? (h : Leads s v path t w) : s.at? path = some t ∧ v.at? path = some w := by
  induction h with
  | here s v => exact ⟨rfl, rfl⟩
  | down hs hv _ _ ih => exact ⟨by simp [Shape.at?, hs, ih], by simp [Value.at?, hv, ih]⟩

/-- On each level of a path that leads to a node all that stands before it is in order. -/
theorem Leads.fits_before (h : Leads s v path t w) {above rest : Path} {seg : Segment}
    (hpath : path = above ++ seg :: rest) :
    ∃ t w, s.at? above = some t ∧ v.at? above = some w ∧ ∀ c ∈ w.before seg, t.FitsAt c.1 c.2 := by
  induction h generalizing above with
  | here => simp at hpath
  | @down s s' _ v v' _ seg' path hs hv hbefore _ ih =>
    cases above with
    | nil =>
      obtain ⟨rfl, rfl⟩ := List.cons.inj hpath
      exact ⟨s, v, rfl, rfl, hbefore⟩
    | cons seg'' above =>
      obtain ⟨rfl, hrest⟩ := List.cons.inj hpath
      obtain ⟨t, w, ht, hw, hfits⟩ := ih hrest
      exact ⟨t, w, by simpa [Shape.at?, hs] using ht, by simpa [Value.at?, hv] using hw, hfits⟩

/-- A path leads to a node that is at fault. -/
def Stops (s : Shape) (v : Value) (m : Mismatch) : Prop :=
  ∃ path own t w, m.path = path ++ own ∧ Leads s v path t w ∧ t.Offends w own m.cause

/-- A fault of a child is one of the node if all that stands before the child is in order. -/
theorem Stops.under {s' : Shape} {v' : Value} {seg : Segment} (h : Stops s' v' m)
    (hs : s.child? seg = some s') (hv : v.child? seg = some v')
    (hbefore : ∀ c ∈ v.before seg, s.FitsAt c.1 c.2) : Stops s v (m.under seg) := by
  obtain ⟨path, own, t, w, hpath, hleads, hoffends⟩ := h
  exact ⟨seg :: path, own, t, w, by simp [Mismatch.under, hpath], .down hs hv hbefore hleads,
    hoffends⟩

/-- A fault at the end of a path that leads there is the first one. -/
theorem Stops.firstFault (h : Stops s v m) : FirstFault s v m := by
  obtain ⟨mpath, cause⟩ := m
  obtain ⟨path, own, t, w, hpath, hleads, hoffends⟩ := h
  obtain rfl : mpath = path ++ own := hpath
  obtain ⟨hs, hv⟩ := hleads.at?
  have hat : ∃ path' own' t w, path ++ own = path' ++ own' ∧ s.at? path' = some t ∧
      v.at? path' = some w ∧ t.Offends w own' cause := ⟨path, own, t, w, rfl, hs, hv, hoffends⟩
  cases hoffends with
  | @node s v cause hcause hread =>
    have hplace : Mismatch.place ⟨path ++ [], cause⟩ = path := by
      cases cause <;> simp [Mismatch.place] at hcause ⊢
    exact ⟨⟨w, by rw [hplace, hv]⟩, fun _ _ _ heq => hleads.fits_before (hplace ▸ heq), hat⟩
  | @bareArm c arm _ harm =>
    have hplace : Mismatch.place ⟨path ++ [.key arm], .bareArm⟩ = path := by simp [Mismatch.place]
    exact ⟨⟨_, by rw [hplace, hv]⟩, fun _ _ _ heq => hleads.fits_before (hplace ▸ heq), hat⟩
  | @unknownField r es k u hslot hu hbefore =>
    refine ⟨⟨u, ?_⟩, fun above seg rest heq => ?_, hat⟩
    · simp [Mismatch.place, Value.at?_append, hv, Value.at?, Value.child?, hu]
    · -- The last segment leads to the unknown field, and the others to the record around it.
      obtain rfl | ⟨rest, last, rfl⟩ := List.eq_nil_or_concat rest
      · obtain ⟨rfl, hseg⟩ := List.append_inj' heq rfl
        obtain rfl := (List.cons.inj hseg).1
        exact ⟨_, _, hs, hv, hbefore⟩
      · rw [List.concat_eq_append, ← List.cons_append, ← List.append_assoc] at heq
        exact hleads.fits_before (List.append_inj' heq rfl).1

/-! ## Where reading stops -/

/-- A fault that is reported under a segment was reported without it. -/
theorem within_eq_error_iff {α : Type} {seg : Segment} {x : Except Mismatch α} :
    within seg x = .error m ↔ ∃ m', x = .error m' ∧ m'.under seg = m := by
  cases x <;> simp [within]

/-- Of several items the first one that is not read is reported. -/
theorem readItems_eq_error {item : Shape} {i : Nat} {vs : List Value}
    (h : readItems item i vs = .error m) :
    ∃ n u m', vs[n]? = some u ∧ item.read u = .error m' ∧ m = m'.under (.index (i + n)) ∧
      ∀ u ∈ vs.take n, item.Fits u := by
  induction vs generalizing i with
  | nil => cases h
  | cons v vs ih =>
    rw [readItems] at h
    rcases bind_eq_error_iff.mp h with h | ⟨w, hw, h⟩
    · obtain ⟨m', hm', rfl⟩ := within_eq_error_iff.mp h
      exact ⟨0, v, m', rfl, hm', rfl, nofun⟩
    · have hv : item.Fits v := ⟨w, within_eq_ok_iff.mp hw⟩
      rcases bind_eq_error_iff.mp h with h | ⟨ws, -, h⟩
      · obtain ⟨n, u, m', hu, hm', rfl, hfits⟩ := ih h
        exact ⟨n + 1, u, m', hu, hm', by rw [Nat.add_right_comm, Nat.add_assoc],
          List.forall_mem_cons.mpr ⟨hv, hfits⟩⟩
      · cases h

/-- The mismatch is that of the first field that is not read, of the fields that are given by
position. The first one of them has index `i`. -/
def PositionFault (i : Nat) (slots : List Slot) (vs : List Value) (m : Mismatch) : Prop :=
  ∃ n, ∃ slot : Slot, ∃ u m', slots[n]? = some slot ∧ vs[n]? = some u ∧
    slot.shape.read u = .error m' ∧ m = m'.under (.index (i + n)) ∧
    ∀ j < n, ∀ u, vs[j]? = some u → ∃ slot : Slot, slots[j]? = some slot ∧ slot.Fits u

/-- Once the first field is in order, the fault is in one of the others. -/
theorem PositionFault.cons {i : Nat} {slot : Slot} {slots : List Slot} {vs : List Value}
    (hv : slot.Fits v) (h : PositionFault (i + 1) slots vs m) :
    PositionFault i (slot :: slots) (v :: vs) m := by
  obtain ⟨n, slot', u, m', hslot, hu, hm', rfl, hfits⟩ := h
  refine ⟨n + 1, slot', u, m', hslot, hu, hm', by rw [Nat.add_right_comm, Nat.add_assoc], ?_⟩
  rintro (_ | j) hj u hu
  · obtain rfl := Option.some.inj hu
    exact ⟨slot, rfl, hv⟩
  · exact hfits j (Nat.lt_of_succ_lt_succ hj) u hu

/-- Of the fields given by position the first one that is not read is reported. -/
theorem readPositions_eq_error {i : Nat} {slots : List Slot} {vs : List Value}
    (h : readPositions i slots vs = .error m) : PositionFault i slots vs m := by
  induction slots generalizing i vs with
  | nil => simp [readPositions] at h
  | cons slot slots ih =>
    cases vs with
    | nil => simp [readPositions] at h
    | cons v vs =>
      rw [readPositions] at h
      split at h
      next habsent => exact .cons (.inl habsent) (ih h)
      rcases bind_eq_error_iff.mp h with h | ⟨w, hw, h⟩
      · obtain ⟨m', hm', rfl⟩ := within_eq_error_iff.mp h
        exact ⟨0, slot, v, m', rfl, rfl, hm', rfl, nofun⟩
      · rcases bind_eq_error_iff.mp h with h | ⟨ws, -, h⟩
        · exact .cons (.inr ⟨w, within_eq_ok_iff.mp hw⟩) (ih h)
        · cases h

/-- The mismatch is that of the first entry that is no field or not read. -/
def EntryFault (r : RecordKind) (es : Mapping) (m : Mismatch) : Prop :=
  ∃ k u, Entries.get? es k = some u ∧
    (∀ c ∈ (Value.mapping es).before (.key k), (record r).FitsAt c.1 c.2) ∧
    (r.slot? k = none ∧ m = ⟨[.key k], .unknownField k r.fieldNames⟩ ∨
      ∃ slot m', r.slot? k = some slot ∧ slot.shape.read u = .error m' ∧ m = m'.under (.key k))

/-- Once the first entry is in order, the fault is in one of the others. -/
theorem EntryFault.cons {r : RecordKind} {k : String} {es : Mapping} {slot : Slot}
    (hk : k ∉ Entries.keys es) (hslot : r.slot? k = some slot) (hv : slot.Fits v)
    (h : EntryFault r es m) : EntryFault r ((k, v) :: es) m := by
  obtain ⟨k', u, hu, hbefore, hfault⟩ := h
  have hne : k ≠ k' := by
    rintro rfl
    exact hk (Entries.isSome_get?_iff.mp (by simp [hu]))
  refine ⟨k', u, by rw [Entries.get?_cons, if_neg hne, hu], ?_, hfault⟩
  simp only [Value.before, List.takeWhile_cons, hne, ne_eq, not_false_eq_true, decide_true,
    if_true, List.map_cons, List.forall_mem_cons]
  exact ⟨⟨slot, hslot, hv⟩, hbefore⟩

/-- Of the fields given by name the first one that is unknown or not read is reported. -/
theorem readEntries_eq_error {r : RecordKind} {es : Mapping} (hes : Entries.Distinct es)
    (h : readEntries r es = .error m) : EntryFault r es m := by
  induction es with
  | nil => cases h
  | cons e es ih =>
    obtain ⟨k, v⟩ := e
    obtain ⟨hk, hes⟩ := List.nodup_cons.mp hes
    have hget : Entries.get? ((k, v) :: es) k = some v := by rw [Entries.get?_cons, if_pos rfl]
    have hfirst : ∀ c ∈ (Value.mapping ((k, v) :: es)).before (.key k),
        (record r).FitsAt c.1 c.2 := by
      simp [Value.before]
    rw [readEntries] at h
    split at h
    next hslot => exact ⟨k, v, hget, hfirst, .inl ⟨hslot, (Except.error.inj h).symm⟩⟩
    next slot hslot =>
      split at h
      next habsent => exact .cons hk hslot (.inl habsent) (ih hes h)
      rcases bind_eq_error_iff.mp h with h | ⟨w, hw, h⟩
      · obtain ⟨m', hm', rfl⟩ := within_eq_error_iff.mp h
        exact ⟨k, v, hget, hfirst, .inr ⟨slot, m', hslot, hm', rfl⟩⟩
      · rcases bind_eq_error_iff.mp h with h | ⟨ws, -, h⟩
        · exact .cons hk hslot (.inr ⟨w, within_eq_ok_iff.mp hw⟩) (ih hes h)
        · cases h

/-- The first required field that is missing is reported of the record. -/
theorem assemble_eq_error {values : Mapping} {missing : Nat → Slot → Cause} {i : Nat}
    {slots : List Slot} (h : assemble values missing i slots = .error m) :
    ∃ j slot, m = ⟨[], missing j slot⟩ := by
  induction slots generalizing i with
  | nil => cases h
  | cons slot slots ih =>
    rw [assemble] at h
    split at h
    · exact ⟨i, slot, (Except.error.inj h).symm⟩
    · exact ih h
    · exact ih h
    · exact ih h
    all_goals
      rcases bind_eq_error_iff.mp h with h | ⟨ws, -, h⟩
      · exact ih h
      · cases h

/-! ## The first fault -/

/-- The mismatch is that of a child, and all that stands before the child is in order. -/
def ChildFault (s : Shape) (v : Value) (m : Mismatch) : Prop :=
  ∃ seg s' v' m', s.child? seg = some s' ∧ v.child? seg = some v' ∧
    (∀ c ∈ v.before seg, s.FitsAt c.1 c.2) ∧ s'.read v' = .error m' ∧ m = m'.under seg

/-- The item of a list that is reported is a child at fault. -/
theorem childFault_of_readItems {item : Shape} {vs : List Value}
    (h : readItems item 0 vs = .error m) : ChildFault (listOf item) (.sequence vs) m := by
  obtain ⟨n, u, m', hu, hm', rfl, hfits⟩ := readItems_eq_error h
  refine ⟨.index n, item, u, m', rfl, hu, fun c hc => ?_, hm', by rw [Nat.zero_add]⟩
  obtain ⟨j, hj, rfl⟩ := List.mem_mapIdx.mp hc
  exact hfits _ (List.getElem_mem hj)

/-- The field given by position that is reported is a child at fault. -/
theorem childFault_of_readPositions {r : RecordKind} {vs : List Value}
    (h : readPositions 0 r.slots vs = .error m) : ChildFault (record r) (.sequence vs) m := by
  obtain ⟨n, slot, u, m', hslot, hu, hm', rfl, hfits⟩ := readPositions_eq_error h
  refine ⟨.index n, slot.shape, u, m', by simp [child?, hslot], hu, fun c hc => ?_, hm',
    by rw [Nat.zero_add]⟩
  obtain ⟨j, hj, rfl⟩ := List.mem_mapIdx.mp hc
  rw [List.length_take] at hj
  exact hfits j (by omega) _ (by simp)

/-- The entry that is reported is no field of the record, or a child at fault. -/
theorem offends_or_childFault_of_readEntries {r : RecordKind} {es : Mapping}
    (hes : Entries.Distinct es) (h : readEntries r es = .error m) :
    Offends (record r) (.mapping es) m.path m.cause ∨ ChildFault (record r) (.mapping es) m := by
  obtain ⟨k, u, hu, hbefore, ⟨hslot, rfl⟩ | ⟨slot, m', hslot, hm', rfl⟩⟩ :=
    readEntries_eq_error hes h
  · exact .inl (.unknownField hslot hu hbefore)
  · exact .inr ⟨.key k, slot.shape, u, m', by simp [child?, hslot], hu, hbefore, hm', rfl⟩

/-- If a tree is not read, the node itself or one of its children is at fault. -/
theorem offends_or_childFault (hv : v.WellFormed) (h : s.read v = .error m) :
    s.Offends v m.path m.cause ∨ s.ChildFault v m := by
  have hread := h
  rw [read.eq_def] at h
  split at h
  all_goals try cases h; done
  next item items =>
    rcases bind_eq_error_iff.mp h with h | ⟨ws, -, h⟩
    · exact .inr (childFault_of_readItems h)
    · cases h
  next r entries =>
    rcases bind_eq_error_iff.mp h with h | ⟨values, -, h⟩
    · rw [Value.WellFormed] at hv
      exact offends_or_childFault_of_readEntries hv.1 h
    · rcases bind_eq_error_iff.mp h with h | ⟨fs, -, h⟩
      · obtain ⟨j, slot, rfl⟩ := assemble_eq_error h
        exact .inl (.node (by simp) hread)
      · cases h
  next r items =>
    rcases bind_eq_error_iff.mp h with h | ⟨values, -, h⟩
    · exact .inr (childFault_of_readPositions h)
    · rcases bind_eq_error_iff.mp h with h | ⟨fs, -, h⟩
      · obtain ⟨j, slot, rfl⟩ := assemble_eq_error h
        exact .inl (.node (by simp) hread)
      · split at h
        · obtain rfl := Except.error.inj h
          exact .inl (.node (by simp) hread)
        · cases h
  next c arm =>
    split at h
    next harm =>
      obtain rfl := Except.error.inj h
      obtain ⟨s, hs⟩ := Option.isSome_iff_exists.mp harm
      exact .inl (.bareArm hs)
    next =>
      obtain rfl := Except.error.inj h
      exact .inl (.node (by simp) hread)
  next c arm u =>
    split at h
    next s hs =>
      rcases bind_eq_error_iff.mp h with h | ⟨w, -, h⟩
      · obtain ⟨m', hm', rfl⟩ := within_eq_error_iff.mp h
        refine .inr ⟨.key arm, s, u, m', hs, ?_, ?_, hm', rfl⟩
        · simp [Value.child?, Entries.get?_cons]
        · simp [Value.before]
      · cases h
    next =>
      obtain rfl := Except.error.inj h
      exact .inl (.node (by simp) hread)
  next =>
    obtain rfl := Except.error.inj h
    exact .inl (.node (by simp) hread)
  next =>
    obtain rfl := Except.error.inj h
    exact .inl (.node (by simp) hread)

/-- A tree that is not read stops the reading at a node that is at fault. -/
theorem stops_of_read (v : Value) {s : Shape} {m : Mismatch} (hv : v.WellFormed)
    (h : s.read v = .error m) : Stops s v m := by
  rcases offends_or_childFault hv h with h | ⟨seg, s', v', m', hs, hv', hbefore, hm', rfl⟩
  · exact ⟨[], m.path, s, v, rfl, .here s v, h⟩
  · have hsize := Value.sizeOf_lt_of_child? hv'
    exact (stops_of_read v' (hv.child? hv') hm').under hs hv' hbefore
termination_by sizeOf v

/-- What is reported is the first fault of the tree. -/
theorem firstFault_of_read (hv : v.WellFormed) (h : s.read v = .error m) : s.FirstFault v m :=
  (stops_of_read v hv h).firstFault

end Shape

end CanonicalCwl
