import CanonicalCwl.Shape.Mismatch

/-!
# Load Errors

Everything that can go wrong between the name of a file and a canonical document, as causes.
`LoadError.message` words them; a text that does not parse has no wording of its own.
-/

namespace CanonicalCwl

/-- Why the file system refuses a request. -/
inductive IoCause where
  | notFound
  | exists
  | notDirectory
  | isDirectory
  deriving DecidableEq

/-- The words for a refusal of the file system. -/
def IoCause.message : IoCause → String
  | notFound => "No such file or directory (os error 2)"
  | «exists» => "File exists (os error 17)"
  | notDirectory => "Not a directory (os error 20)"
  | isDirectory => "Is a directory (os error 21)"

/-- A tree that does not fit the canonical contract: what it was read as, the mismatch, and
the tree itself. -/
structure Conversion where
  target : String
  mismatch : Mismatch
  payload : Value

/-- The words for a failed conversion. -/
def Conversion.message (c : Conversion) : String :=
  "document does not match " ++ c.target ++ " at " ++ Path.text c.mismatch.path ++ ": " ++
    c.mismatch.cause.message

/-- Why a document does not load. -/
inductive LoadError where
  /-- The file cannot be read. -/
  | io (path : String) (cause : IoCause)
  /-- The text of the file is no document. -/
  | parse (path : String)
  /-- The document does not say its class. -/
  | missingClass
  /-- No class has this name. -/
  | unknownClass (name : String)
  /-- The document does not fit the canonical contract. -/
  | conversion (c : Conversion)
  /-- The file would be one too many on the stack of files being loaded. -/
  | recursionLimit (path : String) (limit : Nat)
  /-- The file is already being loaded. -/
  | referenceCycle (path : String)
  /-- A reference to a bundle does not pick one of its members. -/
  | ambiguousGraph (path : String) (fragment : Option String)

/-- The words for a load error. -/
def LoadError.message : LoadError → String
  | io path cause => "failed to read " ++ path ++ ": " ++ cause.message
  | parse path => "failed to parse " ++ path
  | missingClass => "document has no class tag"
  | unknownClass name => "unknown document class \x60" ++ name ++ "\x60"
  | conversion c => c.message
  | recursionLimit path limit =>
      "reference depth exceeds " ++ toString limit ++ " while loading " ++ path
  | referenceCycle path => "reference cycle: " ++ path ++ " is already being loaded"
  | ambiguousGraph path fragment =>
      "cannot pick a process out of $graph in " ++ path ++ " (fragment: " ++
        (match fragment with
          | none => "None"
          | some f => "Some(" ++ Text.quoted f ++ ")") ++ ")"

/-- The failed conversion of a tree that was read as `target`. -/
def LoadError.ofMismatch (target : String) (payload : Value) (mismatch : Mismatch) : LoadError :=
  .conversion { target, mismatch, payload }

end CanonicalCwl
