/-!
# Paths as Text

A path is names separated by slashes. The names `.` and the empty name stand for nothing, and
`..` for the directory around. Nothing here looks at files: a joined path keeps every name as it
was written.
-/

namespace CanonicalCwl.Path

/-- Split at every occurrence of a mark. -/
def splitAt (mark : Char) : List Char → List (List Char)
  | [] => [[]]
  | c :: rest =>
      if c = mark then [] :: splitAt mark rest
      else
        match splitAt mark rest with
        | first :: more => (c :: first) :: more
        | [] => [[c]]

/-- The names in a path, empty ones included. -/
def names (path : String) : List String := (splitAt '/' path.toList).map String.ofList

/-- Whether a path begins at the root. -/
def isAbsolute (path : String) : Bool := path.toList.head? == some '/'

/-- Whether a name stands for nothing. -/
def isVoid (name : String) : Bool := name == "" || name == "."

/-- Drop the names at the end that stand for nothing. -/
def dropVoid (names : List String) : List String := (names.reverse.dropWhile isVoid).reverse

/-- The path of names. -/
def ofNames (names : List String) : String := String.intercalate "/" names

/-- The path without its last name; none if it has no name. The names before the last one stay
as they are written. -/
def parent? (path : String) : Option String :=
  match (dropVoid (names path)).reverse with
  | [] => none
  | _ :: before =>
      let before := dropVoid before.reverse
      some (if before.isEmpty && isAbsolute path then "/" else ofNames before)

/-- A path inside a directory; an absolute path stands for itself. The empty directory is the
working directory. -/
def join (directory path : String) : String :=
  if isAbsolute path || directory.isEmpty then path
  else if directory.toList.getLast? == some '/' then directory ++ path
  else directory ++ "/" ++ path

end CanonicalCwl.Path
