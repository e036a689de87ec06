import CanonicalCwl.Emit.Rust
import CanonicalCwl.Proofs.Identifier
import CanonicalCwl.Proofs.Plan.Members
import CanonicalCwl.Proofs.Plan.Nearest
import CanonicalCwl.Proofs.Plan.Wrappers
import CanonicalCwl.Proofs.Schema.Inheritance

/-!
# Fields of Rust Structures

A field of a structure is written by an identifier that is made from its name. A record has no two
fields of one name and a wrapper no two members of one name, but different names may be made of the
same words, and then they are written by one identifier.

- `Rust.Unambiguous`: the names of a record and of its wrappers have words of their own.
- `Rust.nodup_idents_structs_iff`: exactly for such records the identifiers are different.
- `Rust.nodup_idents_recordStruct_of_camelCase`: field names in camel case are such names.
-/

namespace CanonicalCwl.Emit.Rust

open Identifier Schema

variable {α : Type} {tables : Tables} {reg : Registry} {r : RecordDef} {u : UnionSignature}

/-- The identifiers of a structure. -/
def Struct.idents (s : Struct) : List String := s.fields.map (·.ident)

/-- Names of the same words are the same, for the fields of a record and for the members of each of
its wrappers. -/
structure Unambiguous (r : RecordDef) : Prop where
  fields : ∀ f ∈ r.fields, ∀ g ∈ r.fields, fieldWords f.name = fieldWords g.name → f.name = g.name
  members : ∀ u ∈ (RecordPlan.ofRecord r).unions, ∀ m ∈ u.members, ∀ m' ∈ u.members,
    fieldWords m.wrapper = fieldWords m'.wrapper → m.underlying = m'.underlying

/-- The identifiers of what has different keys are different if words tell the keys apart. -/
theorem nodup_map_snakeCase_iff {l : List α} {key : α → String} (hkey : (l.map key).Nodup)
    (name : α → String) :
    (l.map fun a => snakeCase (name a)).Nodup ↔
      ∀ a ∈ l, ∀ b ∈ l, fieldWords (name a) = fieldWords (name b) → key a = key b := by
  rw [List.nodup_map_iff_inj_on hkey.of_map]
  refine forall₄_congr fun a ha b hb => ?_
  rw [snakeCase_eq_iff]
  exact imp_congr_right fun _ => ⟨congrArg key, List.inj_on_of_nodup_map hkey ha hb⟩

theorem idents_recordStruct (plan : RecordPlan) :
    (recordStruct tables reg plan).idents = plan.fields.map fun f => snakeCase f.name := by
  simp only [Struct.idents, recordStruct, List.map_map, Function.comp_def, field]

theorem idents_wrapperStruct (u : UnionSignature) :
    (wrapperStruct tables reg u).idents = u.members.map fun m => snakeCase m.wrapper := by
  simp only [Struct.idents, wrapperStruct, List.map_map, Function.comp_def, field]

theorem mem_names_ofRecord_iff {name : String} :
    name ∈ (RecordPlan.ofRecord r).fields.map (·.name) ↔ name ∈ r.fields.map (·.name) := by
  rw [RecordPlan.names_ofRecord, RecordPlan.names_firstOfEach, List.mem_eraseDups]

/-- The identifiers of the structure of a record. -/
theorem nodup_idents_recordStruct_iff :
    (recordStruct tables reg (RecordPlan.ofRecord r)).idents.Nodup ↔
      ∀ f ∈ r.fields, ∀ g ∈ r.fields,
        fieldWords f.name = fieldWords g.name → f.name = g.name := by
  have hnames : ((RecordPlan.ofRecord r).fields.map (·.name)).Nodup := by
    rw [RecordPlan.names_ofRecord]
    exact RecordPlan.nodup_names_firstOfEach _
  rw [idents_recordStruct, nodup_map_snakeCase_iff hnames (·.name)]
  -- The planned fields have the names of the fields of the record.
  have hplanned (P : String → Prop) :
      (∀ f ∈ (RecordPlan.ofRecord r).fields, P f.name) ↔ ∀ f ∈ r.fields, P f.name := by
    have hmem : (∀ name ∈ (RecordPlan.ofRecord r).fields.map (·.name), P name) ↔
        ∀ name ∈ r.fields.map (·.name), P name :=
      forall_congr' fun name => imp_congr_left mem_names_ofRecord_iff
    rwa [List.forall_mem_map, List.forall_mem_map] at hmem
  rw [hplanned fun name => ∀ g ∈ (RecordPlan.ofRecord r).fields,
    fieldWords name = fieldWords g.name → name = g.name]
  exact forall₂_congr fun f _ => hplanned fun name =>
    fieldWords f.name = fieldWords name → f.name = name

/-- Fields with names in camel case have different identifiers. -/
theorem nodup_idents_recordStruct_of_camelCase
    (h : ∀ f ∈ r.fields, CamelCase f.name.toList) :
    (recordStruct tables reg (RecordPlan.ofRecord r)).idents.Nodup :=
  nodup_idents_recordStruct_iff.mpr fun f hf g hg => (h f hf).eq_of_fieldWords_eq (h g hg)

/-- The identifiers of the structure of a wrapper. -/
theorem nodup_idents_wrapperStruct_iff (hu : u ∈ (RecordPlan.ofRecord r).unions) :
    (wrapperStruct tables reg u).idents.Nodup ↔
      ∀ m ∈ u.members, ∀ m' ∈ u.members,
        fieldWords m.wrapper = fieldWords m'.wrapper → m.underlying = m'.underlying := by
  obtain ⟨types, htypes⟩ := RecordPlan.exists_built_of_mem_unions hu
  have hnodup : (u.members.map (·.underlying)).Nodup := by
    rw [htypes.eq]
    exact (UnionSignature.exact_build u.name types).nodup
  rw [idents_wrapperStruct]
  exact nodup_map_snakeCase_iff hnodup (·.wrapper)

/-- In each structure of the Rust source the identifiers of fields are different exactly if the
names in the emitted records and in their wrappers are unambiguous. -/
theorem nodup_idents_structs_iff (tables : Tables) (reg : Registry) :
    (∀ s ∈ structs tables reg, s.idents.Nodup) ↔
      ∀ r ∈ emittedRecords tables reg, Unambiguous r := by
  rw [structs, List.forall_mem_flatMap]
  refine forall₂_congr fun r _ => ?_
  rw [recordStructs, List.forall_mem_cons, List.forall_mem_map, nodup_idents_recordStruct_iff]
  constructor
  · exact fun ⟨hfields, hmembers⟩ =>
      ⟨hfields, fun u hu => (nodup_idents_wrapperStruct_iff hu).mp (hmembers u hu)⟩
  · exact fun ⟨hfields, hmembers⟩ =>
      ⟨hfields, fun u hu => (nodup_idents_wrapperStruct_iff hu).mpr (hmembers u hu)⟩

/-- A record node with two fields of the same words. -/
def clashNode : Value :=
  .mapping [("type", .string "record"), ("name", .string "Step"),
    ("fields", .sequence [.mapping [("name", .string "runId"), ("type", .string "string")],
      .mapping [("name", .string "run_id"), ("type", .string "int")]])]

/-- The record that the node declares. -/
def clashRecord : RecordDef :=
  ⟨"Step", [⟨"runId", .named "string", [], none⟩, ⟨"run_id", .named "int", [], none⟩], [], []⟩

theorem structs_clashNode : structs .default (Resolution.ofNodes [clashNode]).registry =
    [⟨"Step", [⟨"runId", "run_id", .option (.name "String")⟩,
      ⟨"run_id", "run_id", .option (.name "i32")⟩], false⟩] := by
  have hregistry : (Resolution.ofNodes [clashNode]).registry = [("Step", .record clashRecord)] :=
    Resolution.registry_ofSurvey_of_lone (by decide +kernel) rfl rfl
  have hplan : RecordPlan.ofRecord clashRecord =
      ⟨"Step", [⟨"runId", .named "string", .scalar "string"⟩,
        ⟨"run_id", .named "int", .scalar "int"⟩], []⟩ := by
    have hstring : FieldShape.ofName "string" = .scalar "string" := by decide +kernel
    have hint : FieldShape.ofName "int" = .scalar "int" := by decide +kernel
    simp [RecordPlan.ofRecord, RecordPlan.firstOfEach, clashRecord, hstring, hint]
  have hemitted : emittedRecords .default [("Step", .record clashRecord)] = [clashRecord] := by
    decide +kernel
  rw [hregistry, structs, hemitted, List.flatMap_singleton, recordStructs, hplan]
  decide +kernel

/-- Both fields are written by one identifier. -/
theorem not_nodup_idents_clashNode :
    ∃ s ∈ structs .default (Resolution.ofNodes [clashNode]).registry,
      s.idents = ["run_id", "run_id"] ∧ ¬ s.idents.Nodup := by
  refine ⟨_, by rw [structs_clashNode]; exact List.mem_singleton_self _, rfl, ?_⟩
  decide

end CanonicalCwl.Emit.Rust
