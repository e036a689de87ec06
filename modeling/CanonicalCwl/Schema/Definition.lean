import CanonicalCwl.Entries
import CanonicalCwl.Schema.LocalName
import CanonicalCwl.TypeExpr.Basic

/-!
# Schema Definitions

The records and enumerations of a schema, and the registry that holds them under their names,
in the order in which the names were first met.
-/

namespace CanonicalCwl.Schema

/-- A record definition. -/
structure RecordDef where
  name : String
  fields : List Field
  /-- The names of the records whose fields it takes over. -/
  parents : List String
  doc : List String
  deriving DecidableEq

/-- An enumeration definition. -/
structure EnumDef where
  name : String
  symbols : List String
  doc : List String
  deriving DecidableEq

/-- A definition. -/
inductive Definition where
  | record (r : RecordDef)
  | enum (e : EnumDef)
  deriving DecidableEq

namespace Definition

/-- The name of a definition. -/
def name : Definition → String
  | record r => r.name
  | enum e => e.name

/-- The record, if the definition is one. -/
def record? : Definition → Option RecordDef
  | record r => some r
  | enum _ => none

/-- The enumeration, if the definition is one. -/
def enum? : Definition → Option EnumDef
  | record _ => none
  | enum e => some e

end Definition

/-- Definitions under their names, in the order in which the names were first met. -/
abbrev Registry := Entries Definition

namespace Registry

/-- The record of a name. -/
def record? (reg : Registry) (name : String) : Option RecordDef :=
  (Entries.get? reg name).bind Definition.record?

/-- The enumeration of a name. -/
def enum? (reg : Registry) (name : String) : Option EnumDef :=
  (Entries.get? reg name).bind Definition.enum?

/-- The records, in order. -/
def records (reg : Registry) : List RecordDef := reg.filterMap fun e => e.2.record?

/-- The enumerations, in order. -/
def enums (reg : Registry) : List EnumDef := reg.filterMap fun e => e.2.enum?

/-- Register a definition; an earlier one of the same name is replaced in its place. -/
def declare (reg : Registry) (d : Definition) : Registry := Entries.insert reg d.name d

/-- Register a definition unless its name is taken. -/
def declareNew (reg : Registry) (d : Definition) : Registry :=
  if Entries.contains reg d.name then reg else reg.declare d

/-- Every definition stands under its own name. -/
def Named (reg : Registry) : Prop := ∀ e ∈ reg, e.1 = e.2.name

end Registry

end CanonicalCwl.Schema
