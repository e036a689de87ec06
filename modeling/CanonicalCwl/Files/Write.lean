import CanonicalCwl.Files.Basic

/-!
# Writing a File

A file is written whole: a new one appears, an old one changes its text. Before that the
directories that the path leads through are made, as far as they do not exist.

- `Files.makeDirectories` makes them.
- `Files.write` writes a file.
-/

namespace CanonicalCwl.Files

/-- Put a text into the file at a location. -/
def put (fs : Files) (place : Location) (text : String) : Files :=
  if fs.texts.any (·.1 == place) then
    { fs with texts := fs.texts.map fun e => if e.1 = place then (place, text) else e }
  else { fs with texts := fs.texts ++ [(place, text)] }

/-- The directory that names lead to. -/
def directory (fs : Files) (start : Location) (names : List String) : Except IoCause Location := do
  let place ← fs.follow start names
  match fs.entry? place with
  | some .directory => return place
  | some (.file _) => .error .notDirectory
  | none => .error .notFound

/-- Make one directory. The names of its path are given last one first. -/
def makeDirectory (fs : Files) (start : Location) : List String → Except IoCause Files
  | [] => .error .exists
  | name :: before => do
      let place ← fs.directory start before.reverse
      if name = ".." || (fs.entry? (place ++ [name])).isSome then .error .exists
      else return { fs with directories := fs.directories ++ [place ++ [name]] }

/-- Make a directory and those around it. The names of its path are given last one first. A
directory that exists already is fine; those that were made stay when a later one fails. -/
def makeDirectories (fs : Files) (start : Location) : List String → Files × Except IoCause Unit
  | [] => (fs, .ok ())
  | name :: before =>
      let exists? (fs : Files) : Bool :=
        (fs.directory start (name :: before).reverse).toOption.isSome
      let settle (fs : Files) (cause : IoCause) : Files × Except IoCause Unit :=
        (fs, if exists? fs then .ok () else .error cause)
      match fs.makeDirectory start (name :: before) with
      | .ok fs => (fs, .ok ())
      | .error .notFound =>
          -- The directory around it is missing; after that is made, one more attempt.
          match makeDirectories fs start before with
          | (fs, .error cause) => (fs, .error cause)
          | (fs, .ok ()) =>
              match fs.makeDirectory start (name :: before) with
              | .ok fs => (fs, .ok ())
              | .error cause => settle fs cause
      | .error cause => settle fs cause

/-- Make the directory that a path leads to, and those around it. -/
def makePath (fs : Files) (path : String) : Files × Except IoCause Unit :=
  fs.makeDirectories (fs.origin path) ((Path.names path).filter (!Path.isVoid ·)).reverse

/-- The location of the file that a path names, for writing. A path that ends in a slash, a
point or two names a directory at best. -/
def writable (fs : Files) (path : String) : Except IoCause Location := do
  let names := Path.names path
  -- The directory is looked for first, whatever the last name is.
  let named := (names.reverse.dropWhile (· == "")).reverse
  let place ← fs.directory (fs.origin path) named.dropLast
  let name := names.getLast?.getD ""
  if Path.isVoid name || name = ".." then .error .isDirectory
  else
    match fs.entry? (place ++ [name]) with
    | some .directory => .error .isDirectory
    | _ => return place ++ [name]

/-- Write the file that a path names. -/
def write (fs : Files) (path text : String) : Except IoCause Files := do
  return fs.put (← fs.writable path) text

end CanonicalCwl.Files
