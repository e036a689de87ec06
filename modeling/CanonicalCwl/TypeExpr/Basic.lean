import CanonicalCwl.Value

/-!
# Type Expressions

The type of a parameter or of a record field: a name, an array, a union, or a record or
enumeration written in place.

- `TypeExpr.beq_iff_eq`: the structural test `TypeExpr.beq` decides equality.
- `TypeExpr.withoutNull` drops the `null` members of a union; a union left with one member
  collapses to it.
-/

namespace CanonicalCwl

/-- A record field over a kind of type expression. -/
@[ext]
structure FieldOf (τ : Type) where
  /-- The name of the field. -/
  name : String
  /-- Its type. -/
  type : τ
  /-- Its documentation, one text a paragraph. -/
  doc : List String
  /-- Its default, as written. -/
  default : Option Value
  deriving DecidableEq

/-- A type expression. -/
inductive TypeExpr where
  /-- A type known by name: a scalar, `null`, or a definition. -/
  | named (name : String)
  /-- Lists of one type. -/
  | array (items : TypeExpr)
  /-- Any of several types. -/
  | union (members : List TypeExpr)
  /-- A record; an anonymous one has the empty name. -/
  | record (name : String) (fields : List (FieldOf TypeExpr))
  /-- An enumeration; an anonymous one has the empty name. -/
  | enum (name : String) (symbols : List String)
  deriving Inhabited

/-- A field of a record type. -/
abbrev Field := FieldOf TypeExpr

namespace TypeExpr

mutual

/-- Structural equality of two type expressions. -/
def beq : TypeExpr → TypeExpr → Bool
  | named a, named b => a == b
  | array a, array b => beq a b
  | union as, union bs => beqAll as bs
  | record a fs, record b gs => a == b && beqFields fs gs
  | enum a ss, enum b ts => a == b && ss == ts
  | _, _ => false

/-- Structural equality of two lists of type expressions. -/
def beqAll : List TypeExpr → List TypeExpr → Bool
  | [], [] => true
  | a :: as, b :: bs => beq a b && beqAll as bs
  | _, _ => false

/-- Structural equality of two lists of fields. -/
def beqFields : List (FieldOf TypeExpr) → List (FieldOf TypeExpr) → Bool
  | [], [] => true
  | f :: fs, g :: gs =>
      f.name == g.name && beq f.type g.type && f.doc == g.doc && f.default == g.default &&
        beqFields fs gs
  | _, _ => false

end

mutual

/-- The structural test decides equality of type expressions. -/
theorem beq_iff_eq : ∀ a b : TypeExpr, beq a b = true ↔ a = b
  | named _, b => by cases b <;> simp [beq]
  | array a, b => by cases b <;> simp [beq, beq_iff_eq a]
  | union as, b => by cases b <;> simp [beq, beqAll_iff_eq as]
  | record _ fs, b => by cases b <;> simp [beq, beqFields_iff_eq fs]
  | enum _ _, b => by cases b <;> simp [beq]

/-- The structural test decides equality of lists of type expressions. -/
theorem beqAll_iff_eq : ∀ as bs : List TypeExpr, beqAll as bs = true ↔ as = bs
  | [], bs => by cases bs <;> simp [beqAll]
  | a :: as, bs => by cases bs <;> simp [beqAll, beq_iff_eq a, beqAll_iff_eq as]

/-- The structural test decides equality of lists of fields. -/
theorem beqFields_iff_eq : ∀ fs gs : List (FieldOf TypeExpr), beqFields fs gs = true ↔ fs = gs
  | [], gs => by cases gs <;> simp [beqFields]
  | ⟨n, t, d, v⟩ :: fs, gs => by
      cases gs <;>
        simp [beqFields, FieldOf.ext_iff, beq_iff_eq t, beqFields_iff_eq fs, and_assoc]

end

instance : DecidableEq TypeExpr := fun a b => decidable_of_iff _ (beq_iff_eq a b)

/-- The type named `null`. -/
def isNull : TypeExpr → Bool
  | named name => name == "null"
  | _ => false

/-- The name a reference, a record or an enumeration is known by. -/
def name? : TypeExpr → Option String
  | named name | record name _ | enum name _ => some name
  | array _ | union _ => none

/-- A union of the members, or the member itself if there is exactly one. -/
def unionOf : List TypeExpr → TypeExpr
  | [t] => t
  | ts => union ts

/-- Drop the `null` members of a union; a union left with one member collapses to it. -/
def withoutNull : TypeExpr → TypeExpr
  | union members => unionOf (members.filter (!·.isNull))
  | t => t

/-- The union of `null` and a type. -/
def optional (t : TypeExpr) : TypeExpr := union [named "null", t]

end TypeExpr

end CanonicalCwl
