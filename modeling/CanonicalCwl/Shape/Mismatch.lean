import CanonicalCwl.Json.Printer
import CanonicalCwl.Shape.Basic
import CanonicalCwl.Text.Quoted

/-!
# Mismatches

Why a tree does not have a shape: the path of the offending place and the cause there.
`Cause.message` words every cause; `Path.text` writes a path.
-/

namespace CanonicalCwl

/-- One step down into a document. -/
inductive Segment where
  | key (name : String)
  | index (i : Nat)
  deriving DecidableEq

/-- The way from the root of a document to a place in it. -/
abbrev Path := List Segment

/-- What is wrong at a place. -/
inductive Cause where
  /-- The record has no field of this name. -/
  | unknownField (name : String) (known : List String)
  /-- The alternative has no arm of this name. -/
  | unknownArm (name : String) (known : List String)
  /-- A required field is absent. -/
  | missingField (name : String)
  /-- The node is of another kind than the shape wants. -/
  | wrongKind (found : Value) (wanted : Shape)
  /-- An alternative is a mapping with none or several entries. -/
  | notSingleEntry
  /-- An arm is named without its content. -/
  | bareArm
  /-- A record written by position ends before a required field. -/
  | tooShort (length : Nat) (record : RecordKind)
  /-- A record written by position has surplus elements. -/
  | tooLong (length : Nat)
  /-- The document is of a class that no process has. -/
  | unknownClass (name : String)
  /-- The members of a bundle are not a sequence but a node of this kind. -/
  | notSequence (kind : String)

/-- The offending place and the cause. -/
structure Mismatch where
  path : Path
  cause : Cause

namespace Path

/-- Write the segments after the first: keys follow a point. -/
def tailText : Path → String
  | [] => ""
  | .key k :: rest => "." ++ k ++ tailText rest
  | .index i :: rest => "[" ++ toString i ++ "]" ++ tailText rest

/-- Write a path; the root is a point. -/
def text : Path → String
  | [] => "."
  | .key k :: rest => k ++ tailText rest
  | path => tailText path

end Path

/-- Names between backticks, as a sentence lists the expected ones. -/
def expectedNames (names : List String) : String :=
  let ticked := names.map fun n => "\x60" ++ n ++ "\x60"
  match ticked with
  | [] => "there are no fields"
  | [a] => "expected " ++ a
  | [a, b] => "expected " ++ a ++ " or " ++ b
  | many => "expected one of " ++ String.intercalate ", " many

namespace Shape

/-- What a shape asks for, in words. -/
def wanted : Shape → String
  | text => "a string"
  | flag => "a boolean"
  | integer => "i64"
  | real => "f64"
  | anything => "any value"
  | mapping => "a map"
  | listOf _ => "a sequence"
  | record kind => "struct " ++ kind.name
  | choice _ => "string or map"

end Shape

/-- What a node is, in words. -/
def Value.found : Value → String
  | .null => "null"
  | .bool b => "boolean \x60" ++ (if b then "true" else "false") ++ "\x60"
  | .int i => "integer \x60" ++ toString i.toInt ++ "\x60"
  | .float x => "floating point \x60" ++ Json.floatStyle.write x ++ "\x60"
  | .string s => "string " ++ Text.quoted s
  | .sequence _ => "sequence"
  | .mapping _ => "map"

/-- A number of elements, in words. -/
def elementCount (n : Nat) : String := toString n ++ if n = 1 then " element" else " elements"

/-- The words for a cause. -/
def Cause.message : Cause → String
  | unknownField name known => "unknown field \x60" ++ name ++ "\x60, " ++ expectedNames known
  | unknownArm name known => "unknown variant \x60" ++ name ++ "\x60, " ++ expectedNames known
  | missingField name => "missing field \x60" ++ name ++ "\x60"
  | wrongKind found wanted => "invalid type: " ++ found.found ++ ", expected " ++ wanted.wanted
  | notSingleEntry => "invalid value: map, expected map with a single key"
  | bareArm => "invalid type: unit variant, expected newtype variant"
  | tooShort length record =>
      "invalid length " ++ toString length ++ ", expected struct " ++ record.name ++ " with " ++
        elementCount record.slots.length
  | tooLong length =>
      "invalid length " ++ toString length ++ ", expected fewer elements in array"
  | unknownClass name => "unknown document class \x60" ++ name ++ "\x60"
  | notSequence kind => "expected a sequence of processes, found " ++ kind

namespace Mismatch

/-- The same mismatch, seen from one step further up. -/
def under (s : Segment) (m : Mismatch) : Mismatch := { m with path := s :: m.path }

end Mismatch

/-- Report the mismatches of a child under its segment. -/
def within {α : Type} (s : Segment) : Except Mismatch α → Except Mismatch α
  | .ok a => .ok a
  | .error m => .error (m.under s)

end CanonicalCwl
