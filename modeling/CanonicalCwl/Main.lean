import CanonicalCwl.CommandLine.Run

/-!
# The Program

The program runs on a picture of the disk that holds only what the run asks for. A run on a
picture with too little in it names the file that it misses; that file is added from the disk, and
the run starts again. What a run has written is carried over to the disk at the end.
-/

namespace CanonicalCwl.CommandLine

/-- The path of a location on the disk. -/
def diskPath (place : Location) : String := "/" ++ Path.ofNames place

/-- Whether there is something at a path on the disk. -/
def onDisk (path : String) : IO Bool := do
  try
    let _ ← IO.FS.realPath path
    return true
  catch _ => return false

/-- Add to the picture what stands on the disk along a path. -/
def lookAlong (read : String → IO String) (fs : Files) : Location → List String → IO Files
  | _, [] => return fs
  | place, name :: rest => do
      if Path.isVoid name then lookAlong read fs place rest
      else if name = ".." then lookAlong read fs place.dropLast rest
      else
        let place := place ++ [name]
        let path := diskPath place
        if (fs.entry? place).isSome then lookAlong read fs place rest
        else if ← onDisk (path ++ "/.") then
          lookAlong read { fs with directories := fs.directories ++ [place] } place rest
        else if ← onDisk path then
          return { fs with texts := fs.texts ++ [(place, ← read path)] }
        else return fs

/-- Add to the picture what stands on the disk along a path. -/
def look (read : String → IO String) (fs : Files) (path : String) : IO Files :=
  lookAlong read fs (fs.origin path) (Path.names path)

/-- The file that a command misses. -/
def missing? (fs : Files) (c : Command) : Option String :=
  match c.text fs with
  | .error (.load _ (.io path .notFound)) => some path
  | _ => none

/-- Add to the picture every file that a command asks for. -/
partial def gather (fs : Files) (c : Command) : IO Files := do
  match missing? fs c with
  | none => return fs
  | some path =>
      let more ← look (fun path => IO.FS.readFile path) fs path
      if more.texts.length + more.directories.length = fs.texts.length + fs.directories.length then
        return fs
      else gather more c

/-- The picture of the disk that a command line needs. The text of a file that is only written
does not matter. -/
def picture (args : List String) : IO Files := do
  let working := (← IO.currentDir).toString
  let fs : Files := ⟨(Path.names working).filter (!Path.isVoid ·), [], []⟩
  match parse args with
  | .error _ => return fs
  | .ok c =>
      let fs ← gather fs c
      match c.out? with
      | some path => look (fun _ => return "") fs path
      | none => return fs

/-- Carry over to the disk what is new. -/
def save (before after : Files) : IO Unit := do
  for place in after.directories do
    unless before.directories.contains place do
      IO.FS.createDirAll (diskPath place)
  for (place, text) in after.texts do
    unless before.texts.contains (place, text) do
      IO.FS.writeFile (diskPath place) text

end CanonicalCwl.CommandLine

open CanonicalCwl.CommandLine in
/-- Run the program on its arguments. -/
def main (args : List String) : IO UInt32 := do
  let before ← picture args
  let done := execute before args
  save before done.files
  IO.print done.stdout
  IO.eprint done.stderr
  return UInt32.ofNat done.code
