import CanonicalCwl.Emit.Proto
import CanonicalCwl.Emit.Rust

/-!
# Targets

The kinds of source that a schema can be compiled to.
-/

namespace CanonicalCwl.Emit

/-- A kind of generated source. -/
inductive Target where
  | proto
  | rust
  deriving DecidableEq

namespace Target

/-- The name of a target. -/
def name : Target → String
  | proto => "proto"
  | rust => "rust"

/-- The target with a name. -/
def ofName? : String → Option Target
  | "proto" => some proto
  | "rust" => some rust
  | _ => none

/-- Compile a registry. -/
def emit (target : Target) (tables : Tables) (reg : Schema.Registry) : String :=
  match target with
  | proto => Proto.emit tables reg
  | rust => Rust.emit tables reg

end Target

end CanonicalCwl.Emit
