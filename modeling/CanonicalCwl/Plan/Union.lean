import CanonicalCwl.Identifier
import CanonicalCwl.Schema.LocalName
import CanonicalCwl.TypeExpr.Basic

/-!
# Union Wrappers

A union becomes a wrapper type of its own, with a member for each of its types. `null` has no
member, a nested union gives its members to the outer one, and an array of a union gets a
wrapper for its elements. An array supersedes the single type of the same name, and equal
members are one.

- `UnionSignature.build` makes the wrapper of a list of types.
- `UnionSignature.elements` lists the element wrappers that it needs, each after those that it
  needs itself.
-/

namespace CanonicalCwl

namespace TypeExpr

/-- The names of types that are no definitions. -/
def scalarNames : List String :=
  ["string", "boolean", "int", "long", "float", "double", "Any", "null"]

/-- Whether a name is no definition. -/
def isScalarName (name : String) : Bool := scalarNames.contains name

/-- The name a member of a wrapper goes by: `Any` for what has none. -/
def underlying (t : TypeExpr) : String :=
  match t.name? with
  | some n => if isScalarName n then n else if n.isEmpty then "Any" else localName n
  | none => "Any"

/-- The members of a union of several types. -/
def severalMembers? : TypeExpr → Option (List TypeExpr)
  | union members => if 1 < members.length then some members else none
  | _ => none

/-- Dropping the null members does not make a type larger. -/
theorem sizeOf_withoutNull_le (t : TypeExpr) : sizeOf t.withoutNull ≤ sizeOf t := by
  cases t with
  | union members =>
    have hfilter : ∀ ts : List TypeExpr, sizeOf (ts.filter (!·.isNull)) ≤ sizeOf ts := by
      intro ts
      induction ts with
      | nil => simp
      | cons t rest ih =>
        rw [List.filter_cons]
        split <;> simp only [List.cons.sizeOf_spec] <;> omega
    have h := hfilter members
    simp only [withoutNull]
    generalize members.filter (!·.isNull) = kept at h
    match kept with
    | [] => simp only [unionOf, union.sizeOf_spec]; omega
    | [t] =>
      simp only [unionOf, union.sizeOf_spec, List.cons.sizeOf_spec] at h ⊢
      omega
    | t :: u :: rest => simp only [unionOf, union.sizeOf_spec]; omega
  | _ => simp [withoutNull]

/-- Whether a type is an array. -/
def isArray : TypeExpr → Bool
  | array _ => true
  | _ => false

/-- The elements of an optional array are smaller than the optional array. -/
theorem sizeOf_item_lt {t items : TypeExpr} (h : t.withoutNull = array items) :
    sizeOf items.withoutNull < sizeOf t := by
  have ht := sizeOf_withoutNull_le t
  have hi := sizeOf_withoutNull_le items
  simp only [h, array.sizeOf_spec] at ht
  omega

/-- The members of the union that the elements of an array are are smaller than the array. -/
theorem sizeOf_severalMembers_lt {items : TypeExpr} {members : List TypeExpr}
    (h : items.withoutNull.severalMembers? = some members) :
    sizeOf members < sizeOf items := by
  have hle := sizeOf_withoutNull_le items
  generalize items.withoutNull = t at h hle
  cases t <;> simp only [severalMembers?, reduceCtorEq, Option.ite_none_right_eq_some,
    Option.some.injEq] at h
  obtain ⟨-, rfl⟩ := h
  simp only [union.sizeOf_spec] at hle
  omega

end TypeExpr

/-- One member of a wrapper. -/
structure UnionMember where
  /-- A scalar, a definition, or the wrapper of array elements. -/
  underlying : String
  isArray : Bool
  deriving DecidableEq

/-- The name of the field that holds the member. -/
def UnionMember.wrapper (m : UnionMember) : String :=
  Identifier.capitalized m.underlying ++ "Value"

/-- A wrapper type for a union. -/
structure UnionSignature where
  name : String
  members : List UnionMember
  deriving DecidableEq

/-- The name of the wrapper for the elements of an array in a wrapper. -/
def elementName (wrapper : String) : String := wrapper ++ "Element"

/-- Whether a name is that of a wrapper for array elements. -/
def isElementName (name : String) : Bool := "Element".toList.isSuffixOf name.toList

namespace UnionSignature

/-- The member for an array of a type. -/
def arrayMember (wrapper : String) (items : TypeExpr) : UnionMember :=
  let item := items.withoutNull
  if item.severalMembers?.isSome then ⟨elementName wrapper, true⟩ else ⟨item.underlying, true⟩

/-- The members for a list of types, before pruning. -/
def collect (wrapper : String) : List TypeExpr → List UnionMember
  | [] => []
  | .union inner :: rest => collect wrapper inner ++ collect wrapper rest
  | .array items :: rest => arrayMember wrapper items :: collect wrapper rest
  | t :: rest =>
      if t.isNull then collect wrapper rest else ⟨t.underlying, false⟩ :: collect wrapper rest
termination_by types => sizeOf types
decreasing_by
  all_goals
    simp only [List.cons.sizeOf_spec, TypeExpr.union.sizeOf_spec]
    omega

/-- Drop a single type if an array of the same name is there, and repeated members. -/
def prune (members : List UnionMember) : List UnionMember :=
  (members.filter fun m =>
    m.isArray || !members.any fun o => o.isArray && o.underlying == m.underlying).eraseDups

/-- The wrapper for a list of types. -/
def build (name : String) (types : List TypeExpr) : UnionSignature :=
  ⟨name, prune (collect name types)⟩

/-- The element wrappers that the wrapper for a list of types needs, each after those that it
needs itself. -/
def elements (wrapper : String) : List TypeExpr → List UnionSignature
  | [] => []
  | .union inner :: rest => elements wrapper inner ++ elements wrapper rest
  | .array items :: rest =>
      (match _ : items.withoutNull.severalMembers? with
        | some members =>
            elements (elementName wrapper) members ++ [build (elementName wrapper) members]
        | none => []) ++ elements wrapper rest
  | _ :: rest => elements wrapper rest
termination_by types => sizeOf types
decreasing_by
  all_goals simp_wf
  any_goals omega
  have := TypeExpr.sizeOf_severalMembers_lt (by assumption)
  omega

/-- The wrapper for a list of types, after the element wrappers that it needs. -/
def withElements (wrapper : String) (types : List TypeExpr) : List UnionSignature :=
  elements wrapper types ++ [build wrapper types]

end UnionSignature

end CanonicalCwl
