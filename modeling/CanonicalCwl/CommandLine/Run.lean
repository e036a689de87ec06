import CanonicalCwl.CommandLine.Parse
import CanonicalCwl.Files.Write
import CanonicalCwl.Process.Cwl
import CanonicalCwl.Schema.Inheritance
import CanonicalCwl.Text.Blank
import CanonicalCwl.Yaml.Printer

/-!
# Running a Command

A command reads its input, makes a text of it, and writes the text to a file or to the standard
output. The text is complete before anything is written.

- `Command.text` is the text of a command.
- `Command.run` carries a command out.
- `CommandLine.execute` is the whole program.
-/

namespace CanonicalCwl.CommandLine

/-- Why a command fails. -/
inductive Failure where
  /-- The input does not load; `doing` says what was being done with it. -/
  | load (doing : Option String) (error : LoadError)
  | makingDirectory (path : String) (cause : IoCause)
  | writingFile (path : String) (cause : IoCause)

/-- A load error with its cause: that of a file that cannot be read is told once more. -/
def loadErrorChain (e : LoadError) : String :=
  match e with
  | .io _ cause => e.message ++ ": " ++ cause.message
  | e => e.message

/-- The words for a failure, from the outermost cause to the innermost. -/
def Failure.message : Failure → String
  | load (some doing) e => doing ++ ": " ++ loadErrorChain e
  | load none e => loadErrorChain e
  | makingDirectory path cause => "creating " ++ path ++ ": " ++ cause.message
  | writingFile path cause => "writing " ++ path ++ ": " ++ cause.message

/-- The text of a tree, as JSON or as YAML. -/
def treeText (json : Bool) (tree : Value) : String :=
  if json then Json.pretty tree else Yaml.write tree

namespace Command

/-- The file that a command writes; none for the standard output. -/
def out? : Command → Option String
  | canonicalize _ _ _ out | restore _ out | schema _ _ out => out

/-- The text of a command. -/
def text (fs : Files) : Command → Except Failure String
  | canonicalize input settings json _ => do
      let loaded := (Loader.load fs settings input).result
      let doc ← loaded.mapError (.load (some ("converting " ++ input)))
      return treeText json doc.toTree
  | restore input _ => do
      let doc ← (fs.readCanonical input).mapError (.load (some ("reading " ++ input)))
      return treeText false doc.toCwl
  | schema input target _ => do
      let tree ← (fs.readTree input).mapError (.load none)
      return target.emit .default (Schema.Resolution.ofNodes (Schema.nodesOf tree)).registry

end Command

/-- The text as the standard output shows it: one line break ends it. -/
def shownText (text : String) : String := Text.trimEnd text ++ "\n"

/-- What a command leaves behind. -/
structure Completion where
  result : Except Failure Unit
  stdout : String
  files : Files

/-- Write a text to a file. The directories around it are made first. -/
def writeFile (fs : Files) (path text : String) : Completion :=
  let directory := Path.parent? path
  match (directory.map fs.makePath).getD (fs, .ok ()) with
  | (fs, .error cause) => ⟨.error (.makingDirectory (directory.getD "") cause), "", fs⟩
  | (fs, .ok ()) =>
      match fs.write path text with
      | .error cause => ⟨.error (.writingFile path cause), "", fs⟩
      | .ok fs => ⟨.ok (), "", fs⟩

/-- Carry a command out. -/
def Command.run (fs : Files) (c : Command) : Completion :=
  match c.text fs with
  | .error failure => ⟨.error failure, "", fs⟩
  | .ok text =>
      match c.out? with
      | some path => writeFile fs path text
      | none => ⟨.ok (), shownText text, fs⟩

/-! ## The program -/

/-- How a run of the program ends. -/
structure Exit where
  code : Nat
  stdout : String
  stderr : String
  files : Files

/-- What is shown of a failure; a document that does not fit is shown with it. -/
def Failure.report (f : Failure) : String :=
  (match f with
    | load _ (.conversion c) => "In document:\n" ++ Json.pretty c.payload ++ "\n"
    | _ => "") ++ "error: " ++ f.message ++ "\n"

/-- Run the program. -/
def execute (fs : Files) (args : List String) : Exit :=
  match parse args with
  | .error .versionRequested => ⟨0, programName ++ " " ++ version ++ "\n", "", fs⟩
  | .error e => ⟨e.exitCode, "", "", fs⟩
  | .ok c =>
      let done := c.run fs
      match done.result with
      | .ok () => ⟨0, done.stdout, "", done.files⟩
      | .error failure => ⟨1, "", failure.report, done.files⟩

end CanonicalCwl.CommandLine
