import CanonicalCwl.Files.Path
import CanonicalCwl.LoadError

/-!
# Files

A finite tree of files without links. A directory exists if it is made or holds a file; the
working directory always exists.

- `Files.locate` follows a path to a location.
- `Files.showLocation` shows a location, relative to the working directory if it is inside.
-/

namespace CanonicalCwl

/-- A place in the tree of files: the names on the way from the root. -/
abbrev Location := List String

/-- A finite tree of files. -/
structure Files where
  /-- The directory that relative paths start from. -/
  working : Location
  /-- The texts of the files. -/
  texts : List (Location × String)
  /-- Directories that exist without a file in them. -/
  directories : List Location

namespace Files

/-- What is at a location. -/
inductive Entry where
  | directory
  | file (text : String)

/-- Whether there is a directory at a location. -/
def isDirectory (fs : Files) (place : Location) : Bool :=
  place.isPrefixOf fs.working || fs.directories.any place.isPrefixOf ||
    fs.texts.any fun (file, _) => place.isPrefixOf file && place != file

/-- What is at a location. -/
def entry? (fs : Files) (place : Location) : Option Entry :=
  match fs.texts.lookup place with
  | some text => some (.file text)
  | none => if fs.isDirectory place then some .directory else none

/-- Follow names from a location. A step from a file leads nowhere, not even to itself. -/
def follow (fs : Files) : Location → List String → Except IoCause Location
  | place, [] => .ok place
  | place, name :: rest =>
      match fs.entry? place with
      | none => .error .notFound
      -- Not even `.` leads on from a file.
      | some (.file _) => .error .notDirectory
      | some .directory =>
          if Path.isVoid name then follow fs place rest
          else if name = ".." then follow fs place.dropLast rest
          else
            match fs.entry? (place ++ [name]) with
            | none => .error .notFound
            | some _ => follow fs (place ++ [name]) rest

/-- The location where a path starts. -/
def origin (fs : Files) (path : String) : Location :=
  if Path.isAbsolute path then [] else fs.working

/-- The location that a path leads to. -/
def locate (fs : Files) (path : String) : Except IoCause Location :=
  fs.follow (fs.origin path) (Path.names path)

/-- Show a location: relative to the working directory if it is inside, else from the root. -/
def showLocation (fs : Files) (place : Location) : String :=
  if place = fs.working then "."
  else if fs.working.isPrefixOf place then Path.ofNames (place.drop fs.working.length)
  else "/" ++ Path.ofNames place

/-- The text of the file at a location. -/
def textAt (fs : Files) (place : Location) : Except IoCause String :=
  match fs.entry? place with
  | some (.file text) => .ok text
  | some .directory => .error .isDirectory
  | none => .error .notFound

/-- The text of the file that a path leads to. -/
def readText (fs : Files) (path : String) : Except IoCause String := do
  fs.textAt (← fs.locate path)

end Files

end CanonicalCwl
