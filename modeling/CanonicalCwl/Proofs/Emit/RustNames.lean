import CanonicalCwl.Emit.Rust
import CanonicalCwl.Proofs.Plan.Wrappers

/-!
# Names in Rust Definitions

The types of the fields of Rust structures are written by name. A name is that of a scalar, of the
untyped value, or of a definition in the same source. The exception is a reference to a name under
which nothing is defined: it is untyped, but not if it ends like the name of a wrapper for array
elements.

- `Rust.Known`: the names that a type can be written by.
- `Rust.Stray`: the names that a type is written by although they may not be known.
- `Rust.closed_ofNodes`: the Rust source of a resolved schema has no other names.
-/

namespace CanonicalCwl.Emit.Rust

open Schema

/-- The name inside of options, lists and boxes. -/
def Spelling.path : Spelling → String
  | .name path => path
  | .option inner | .vec inner | .box inner => inner.path

variable {tables : Tables} {reg : Registry} {name : String} {r : RecordDef} {shape : FieldShape}

/-- The name is that of a scalar or of the untyped value, or the source defines an enumeration or a
structure under it. -/
inductive Known (tables : Tables) (reg : Registry) : String → Prop
  | scalar {e : String × String} (h : e ∈ tables.rustScalars) : Known tables reg e.2
  | untyped : Known tables reg "serde_json::Value"
  | enum {e : EnumDef} (h : e ∈ reg.enums) : Known tables reg e.name
  | struct {s : Struct} (h : s ∈ structs tables reg) : Known tables reg s.name

/-- Neither an enumeration nor an emitted record is registered under the name, but it ends like that
of a wrapper for array elements. -/
structure Loose (tables : Tables) (reg : Registry) (name : String) : Prop where
  element : isElementName name
  enum : reg.enum? name = none
  record : ¬ isRecord tables reg name

/-- A field of an emitted record refers to the name, and nothing but its ending makes it one that
can be written. -/
structure Stray (tables : Tables) (reg : Registry) (name : String) : Prop where
  loose : Loose tables reg name
  referred : ∃ r ∈ emittedRecords tables reg, ∃ f ∈ r.fields, ∃ place ref,
    f.type.typeAt place = some (.named ref) ∧ localName ref = name

/-- The types of the fields of structures are written by known names, except for stray ones. -/
def Closed (tables : Tables) (reg : Registry) : Prop :=
  ∀ s ∈ structs tables reg, ∀ f ∈ s.fields,
    Known tables reg f.type.path ∨ Stray tables reg f.type.path

/-! ## What is defined -/

theorem mem_structs_of_mem_emittedRecords (h : r ∈ emittedRecords tables reg) {s : Struct}
    (hs : s ∈ recordStructs tables reg r) : s ∈ structs tables reg :=
  List.mem_flatMap.mpr ⟨r, h, hs⟩

/-- The enumerations of a registry are defined. -/
theorem known_of_enum? (hnamed : reg.Named) (h : (reg.enum? name).isSome) :
    Known tables reg name := by
  obtain ⟨e, he⟩ := Option.isSome_iff_exists.mp h
  have hmem := Registry.mem_of_enum? he
  have hname : name = e.name := hnamed _ hmem
  rw [hname]
  exact .enum (List.mem_filterMap.mpr ⟨_, hmem, rfl⟩)

/-- The emitted records of a registry are defined. -/
theorem known_of_isRecord (hnamed : reg.Named) (h : isRecord tables reg name) :
    Known tables reg name := by
  rw [isRecord, Bool.and_eq_true] at h
  obtain ⟨r, hr⟩ := Option.isSome_iff_exists.mp h.1
  have hmem := Registry.mem_of_record? hr
  have hname : name = r.name := hnamed _ hmem
  rw [hname] at h ⊢
  have hemitted : r ∈ emittedRecords tables reg :=
    List.mem_filter.mpr ⟨Registry.mem_records_iff.mpr ⟨name, hmem⟩, h.2⟩
  exact .struct (mem_structs_of_mem_emittedRecords hemitted (List.mem_cons_self ..))

/-- The wrappers of the emitted records are defined. -/
theorem known_of_mem_unions (h : r ∈ emittedRecords tables reg)
    (hname : name ∈ (RecordPlan.ofRecord r).unions.map (·.name)) : Known tables reg name := by
  obtain ⟨u, hu, rfl⟩ := List.mem_map.mp hname
  have hs : wrapperStruct tables reg u ∈ recordStructs tables reg r :=
    List.mem_cons_of_mem _ (List.mem_map_of_mem hu)
  exact .struct (mem_structs_of_mem_emittedRecords h hs)

/-! ## What is written -/

/-- Boxes and options do not change the name that a type is written by. -/
theorem path_fieldType (tables : Tables) (reg : Registry) (shape : FieldShape) :
    (fieldType tables reg shape).path = (valueType tables reg shape).path := by
  cases shape with
  | scalar name | union wrapper | array item => rfl
  | ref name =>
    rw [fieldType]
    split
    next h => rw [valueType, if_pos (by simp [h])]; rfl
    next => rfl

/-- If the wrappers that a shape names are known, then so is all that it is written by, except for
loose references. -/
theorem known_or_loose_valueType (hnamed : reg.Named) {definitions wrappers : String → Prop}
    (hwrappers : ∀ n, wrappers n → Known tables reg n)
    (h : shape.Within (fun n => definitions n ∨ wrappers n) wrappers) :
    Known tables reg (valueType tables reg shape).path ∨
      definitions (valueType tables reg shape).path ∧
        Loose tables reg (valueType tables reg shape).path := by
  induction shape with
  | scalar name =>
    left
    rw [valueType]
    cases hget : Entries.get? tables.rustScalars name with
    | none => exact .untyped
    | some spelling => exact .scalar (Entries.mem_of_get? hget)
  | union wrapper => exact .inl (hwrappers wrapper h)
  | array item ih => exact ih h
  | ref name =>
    rw [valueType]
    split_ifs with hwritten
    · -- The name of a wrapper for array elements is known as well, but this is not looked up.
      show Known tables reg name ∨ definitions name ∧ Loose tables reg name
      by_cases henum : (reg.enum? name).isSome
      · exact .inl (known_of_enum? hnamed henum)
      by_cases hrecord : isRecord tables reg name
      · exact .inl (known_of_isRecord hnamed hrecord)
      have helement : isElementName name := by simpa [henum, hrecord] using hwritten
      exact h.elim (fun h => .inr ⟨h, helement, by simpa using henum, hrecord⟩)
        fun h => .inl (hwrappers name h)
    · exact .inl .untyped

/-- The shape of a member names what it stands for. -/
theorem within_memberShape {definitions wrappers : String → Prop} {m : UnionMember}
    (h : m.Within definitions wrappers) :
    (memberShape m).Within (fun n => definitions n ∨ wrappers n) wrappers := by
  rw [memberShape]
  split_ifs with _ hscalar hscalar
  · trivial
  · exact h.resolve_left hscalar
  · trivial
  · exact h.resolve_left hscalar

/-- A name in a structure of an emitted record is known, or it is a loose reference of the record.
-/
theorem known_or_loose_of_mem_fields (hnamed : reg.Named) (hr : r ∈ emittedRecords tables reg)
    {s : Struct} (hs : s ∈ recordStructs tables reg r) {f : Field} (hf : f ∈ s.fields) :
    Known tables reg f.type.path ∨ r.RefersTo f.type.path ∧ Loose tables reg f.type.path := by
  have hwrappers (n : String) (hn : n ∈ (RecordPlan.ofRecord r).unions.map (·.name)) :
      Known tables reg n := known_of_mem_unions hr hn
  rcases List.mem_cons.mp hs with rfl | hs
  · obtain ⟨planned, hplanned, rfl⟩ := List.mem_map.mp hf
    rw [field, path_fieldType]
    refine known_or_loose_valueType hnamed hwrappers ?_
    exact (RecordPlan.within_of_mem_fields hplanned).mono (fun n => .inl) fun n => id
  · obtain ⟨u, hu, rfl⟩ := List.mem_map.mp hs
    obtain ⟨m, hm, rfl⟩ := List.mem_map.mp hf
    rw [field, path_fieldType]
    refine known_or_loose_valueType hnamed hwrappers ?_
    exact within_memberShape (RecordPlan.within_of_mem_members hu hm)

/-- In the Rust source of a resolved schema every name of a type is known, except for stray ones. -/
theorem closed_ofNodes (tables : Tables) (nodes : List Value) :
    Closed tables (Resolution.ofNodes nodes).registry := by
  intro s hs f hf
  obtain ⟨r, hr, hs⟩ := List.mem_flatMap.mp hs
  have hnamed : (Resolution.ofNodes nodes).registry.Named := fun e he =>
    (Resolution.named_ofNodes he).1
  refine (known_or_loose_of_mem_fields hnamed hr hs hf).imp_right fun ⟨⟨g, hg, href⟩, hloose⟩ => ?_
  obtain ⟨t, ht⟩ := Resolution.exists_lifted (List.mem_filter.mp hr).1 hg
  rw [ht] at href
  rcases href.typeAt_of_lifted with hempty | ⟨place, ref, hplace, href⟩
  · -- What has no name has no ending either.
    have helement := hloose.element
    rw [hempty] at helement
    exact absurd helement (by decide)
  · exact ⟨hloose, r, hr, g, hg, place, ref, by rw [ht]; exact hplace, href⟩

/-- A record node with a field of a type that nothing declares. -/
def strayNode : Value :=
  .mapping [("type", .string "record"), ("name", .string "Step"),
    ("fields", .sequence [.mapping [("name", .string "run"), ("type", .string "GhostElement")]])]

/-- The record that the node declares. -/
def strayRecord : RecordDef := ⟨"Step", [⟨"run", .named "GhostElement", [], none⟩], [], []⟩

theorem registry_strayNode :
    (Resolution.ofNodes [strayNode]).registry = [("Step", .record strayRecord)] :=
  Resolution.registry_ofSurvey_of_lone (by decide +kernel) rfl rfl

theorem structs_strayNode : structs .default (Resolution.ofNodes [strayNode]).registry =
    [⟨"Step", [⟨"run", "run", .option (.name "GhostElement")⟩], false⟩] := by
  have hplan : RecordPlan.ofRecord strayRecord =
      ⟨"Step", [⟨"run", .named "GhostElement", .ref "GhostElement"⟩], []⟩ := by
    have hname : FieldShape.ofName "GhostElement" = .ref "GhostElement" := by decide +kernel
    simp [RecordPlan.ofRecord, RecordPlan.firstOfEach, strayRecord, hname]
  have hemitted : emittedRecords .default [("Step", .record strayRecord)] = [strayRecord] := by
    decide +kernel
  rw [registry_strayNode, structs, hemitted, List.flatMap_singleton, recordStructs, hplan]
  decide +kernel

/-- The type is written by its name, which is not known. -/
theorem not_known_strayNode :
    ∃ s ∈ structs .default (Resolution.ofNodes [strayNode]).registry, ∃ f ∈ s.fields,
      f.type.path = "GhostElement" ∧
        ¬ Known .default (Resolution.ofNodes [strayNode]).registry "GhostElement" := by
  refine ⟨_, by rw [structs_strayNode]; exact List.mem_singleton_self _, _,
    List.mem_singleton_self _, rfl, fun h => ?_⟩
  generalize hname : "GhostElement" = name at h
  cases h with
  | @scalar e h =>
    have hscalars : ∀ e ∈ Tables.default.rustScalars, "GhostElement" ≠ e.2 := by decide
    exact hscalars e h hname
  | untyped => exact absurd hname (by decide)
  | enum h =>
    rw [registry_strayNode] at h
    cases h
  | struct h =>
    rw [structs_strayNode] at h
    cases List.mem_singleton.mp h
    exact absurd hname (by decide)

end CanonicalCwl.Emit.Rust
