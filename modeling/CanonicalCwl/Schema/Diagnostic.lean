/-!
# Schema Diagnostics

What can be wrong with a schema node. A diagnostic never stops the resolution: the node is
left out and the rest goes on.
-/

namespace CanonicalCwl

/-- What is wrong with a schema node. -/
inductive Diagnostic where
  /-- The node is no type expression. -/
  | unrecognizedNode (context : String) (kind : String)
  /-- A record, an enumeration or a field has no name. -/
  | missingName (context : String) (what : String)
  /-- A record extends something that is no declared record. -/
  | unknownParent (record : String) (parent : String)
  /-- A record extends itself through its parents. -/
  | extendsCycle (record : String)
  deriving DecidableEq

/-- The words for a diagnostic. -/
def Diagnostic.message : Diagnostic → String
  | unrecognizedNode context kind =>
      "unrecognized type node (" ++ kind ++ ") in " ++ context
  | missingName context what => what ++ " in " ++ context ++ " has no name"
  | unknownParent record parent => "record " ++ record ++ " extends unknown type " ++ parent
  | extendsCycle record => "extends cycle through " ++ record

end CanonicalCwl
