/-!
# YAML Tokens

The tokens of a YAML text. Block collections are marked by their indentation; their beginning
and their end are tokens too.
-/

namespace CanonicalCwl.Yaml

/-- A token. -/
inductive Token where
  /-- The version that a directive asks for. -/
  | version (major minor : Nat)
  /-- A short form of tags: a handle and what it stands for. -/
  | tagHandle (handle meaning : String)
  | documentStart
  | documentEnd
  | blockSequenceStart
  | blockMappingStart
  | blockEnd
  | flowSequenceStart
  | flowSequenceEnd
  | flowMappingStart
  | flowMappingEnd
  | blockEntry
  | flowEntry
  | key
  | value
  | aliasTo (name : String)
  | anchor (name : String)
  /-- A tag; the empty handle stands for itself. -/
  | tag (handle suffix : String)
  /-- A scalar; a plain one is written without quotes and without an indicator. -/
  | scalar (text : String) (plain : Bool)
  deriving DecidableEq, Repr

end CanonicalCwl.Yaml
