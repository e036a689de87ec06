import CanonicalCwl.Files.Basic
import CanonicalCwl.Process.Normal
import CanonicalCwl.Yaml.Reader

/-!
# Documents in Files

A file holds the YAML or JSON text of one tree. A canonical document is read by its shape: a
bundle has a `graph`, and any other document is a process of the class that it names.
-/

namespace CanonicalCwl

namespace Files

/-- The tree that a text holds; `path` is the path that an error shows. -/
def parseText (path : String) (text : Except IoCause String) : Except LoadError Value :=
  match text with
  | .error cause => .error (.io path cause)
  | .ok text =>
      match Yaml.read text with
      | some tree => .ok tree
      | none => .error (.parse path)

/-- The tree in the file that a path leads to. -/
def readTree (fs : Files) (path : String) : Except LoadError Value :=
  parseText path (fs.readText path)

/-- The tree in the file at a location. -/
def treeAt (fs : Files) (place : Location) : Except LoadError Value :=
  parseText (fs.showLocation place) (fs.textAt place)

end Files

namespace Document

/-- The document of a tree that is in canonical form already. -/
def ofCanonical (tree : Value) : Except LoadError Document :=
  if (tree.get? "graph").isSome then
    ((Graph.decode tree).mapError (LoadError.ofMismatch "GraphRecord" tree)).map .graph
  else do
    let tag ← ClassTag.ofDocument tree
    return .process (← Normal.decode tag tree)

end Document

/-- The canonical document in the file that a path leads to. -/
def Files.readCanonical (fs : Files) (path : String) : Except LoadError Document := do
  Document.ofCanonical (← fs.readTree path)

end CanonicalCwl
