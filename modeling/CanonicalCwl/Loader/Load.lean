import CanonicalCwl.Files.Document
import CanonicalCwl.Loader.Reference

/-!
# Loading Documents

A raw document is brought into normal form, one process or every member of a bundle, and then
the references of its steps are followed. A reference to a file loads that file in the same way,
relative to the file it is in. The files being loaded form a stack: none may be on it twice, and
it may not grow beyond a limit.

- `Loader.ofTree` loads a tree that is at hand.
- `Loader.load` loads a file.
-/

namespace CanonicalCwl

/-- How documents are loaded. -/
structure Settings where
  /-- Whether references are followed. -/
  resolve : Bool
  /-- How many files may be on the stack. -/
  maxDepth : Nat
  deriving DecidableEq

namespace Settings

/-- The number of files on the stack unless a limit is given. -/
def defaultMaxDepth : Nat := 32

/-- References are followed. -/
def default : Settings := ⟨true, defaultMaxDepth⟩

end Settings

namespace Loader

/-- Load a single process from its raw tree. Its references to members lead nowhere. -/
def loadProcess (resolve : Bool) (external : String → Outcome Process) (raw : Value) :
    Outcome Document := do
  let p ← Outcome.ofExcept (Normal.process raw)
  if resolve then return .process (← Reference.followMember external [] p)
  else return .process p

/-- Load a bundle from the raw trees of its members. All of them are brought into normal form
before any reference is followed. -/
def loadBundle (resolve : Bool) (external : String → Outcome Process) (cwlVersion : Option String)
    (raws : List Value) : Outcome Document := do
  let members ← Outcome.ofExcept (raws.mapM Normal.process)
  if resolve then
    return .graph ⟨cwlVersion, ← members.mapM (Reference.followMember external members)⟩
  else return .graph ⟨cwlVersion, members⟩

/-- Load a raw tree; `external` finds the process of a file. -/
def loadTree (resolve : Bool) (external : String → Outcome Process) (raw : Value) :
    Outcome Document :=
  match raw.get? "$graph" with
  | none => loadProcess resolve external raw
  | some (.sequence raws) => loadBundle resolve external (raw.text? "cwlVersion") raws
  | some other =>
      .fail (.conversion
        { target := "GraphRecord",
          mismatch := ⟨[.key "$graph"], .notSequence other.kind⟩,
          payload := raw })

/-- Find the process that a reference to a file stands for, from a directory. -/
def external (load : String → Outcome Document) (directory target : String) : Outcome Process := do
  let (file, fragment) := Reference.split target
  let path := Path.join directory file
  let doc ← load path
  Outcome.ofExcept (Reference.select doc fragment path)

/-- The directory of the file at a location, as references inside it begin. -/
def directoryOf (fs : Files) (place : Location) : String :=
  if place.dropLast = fs.working then "" else fs.showLocation place.dropLast

/-- Load a file while those of `stack` are being loaded; `room` is how many more there may be.
A file on the stack is refused before one that is too many. -/
def loadFile (fs : Files) (settings : Settings) :
    Nat → List Location → String → Outcome Document
  | room, stack, path =>
      match fs.locate path with
      | .error cause => .fail (.io path cause)
      | .ok place =>
          -- The limit is looked at last, so that a cycle is always called a cycle.
          if place ∈ stack then .fail (.referenceCycle (fs.showLocation place))
          else
            match room with
            | 0 => .fail (.recursionLimit (fs.showLocation place) settings.maxDepth)
            | room + 1 => do
                let raw ← Outcome.ofExcept (fs.treeAt place)
                loadTree settings.resolve
                  (external (loadFile fs settings room (place :: stack)) (directoryOf fs place)) raw

/-- Load the file that a path leads to. -/
def load (fs : Files) (settings : Settings) (path : String) : Outcome Document :=
  loadFile fs settings settings.maxDepth [] path

/-- Load a tree that is at hand, as if it were in the file `origin`. The references in it begin in
the directory of that file, and in the working directory if the path has none. -/
def ofTree (fs : Files) (settings : Settings) (raw : Value) (origin : String) :
    Outcome Document :=
  loadTree settings.resolve
    (external (load fs settings) ((Path.parent? origin).getD "")) raw

end Loader

end CanonicalCwl
