/-!
# Identifiers

How the names of a schema are spelled in generated source. Whatever is no letter, digit or
underscore of ASCII becomes an underscore, and a name never begins with a digit.

- `Identifier.capitalized` spells the names of types and of enumeration values.
- `Identifier.snakeCase` spells the names of fields, and keeps clear of reserved words.
-/

namespace CanonicalCwl.Identifier

/-- Whether a character may stand in an identifier. -/
def allowed (c : Char) : Bool := c.isAlphanum || c == '_'

/-- Put an underscore in the place of every other character. -/
def clean (s : String) : List Char := s.toList.map fun c => if allowed c then c else '_'

/-- Put an underscore in front of a leading digit. -/
def guardDigit : List Char → List Char
  | c :: rest => if c.isDigit then '_' :: c :: rest else c :: rest
  | [] => []

/-- Spell a name with a capital first letter. -/
def capitalized (s : String) : String :=
  match clean s with
  | c :: rest => String.ofList (guardDigit (c.toUpper :: rest))
  | [] => ""

/-- Break a name before the capitals that follow a small letter or a digit, and write it in
small letters. `afterSmall` says that one has just been passed. -/
def breakWords (afterSmall : Bool) : List Char → List Char
  | [] => []
  | c :: rest =>
      if c.isUpper then
        -- A run of capitals stays one word.
        (if afterSmall then ['_', c.toLower] else [c.toLower]) ++ breakWords false rest
      else c :: breakWords (c.isLower || c.isDigit) rest

/-- The reserved words that may be written as raw identifiers. -/
def rawWords : List String :=
  ["as", "async", "await", "break", "const", "continue", "dyn", "else", "enum", "extern",
    "false", "fn", "for", "gen", "if", "impl", "in", "let", "loop", "match", "mod", "move", "mut",
    "pub", "ref", "return", "static", "struct", "trait", "true", "try", "type", "unsafe", "use",
    "where", "while", "abstract", "become", "box", "do", "final", "macro", "override", "priv",
    "typeof", "unsized", "virtual", "yield"]

/-- The reserved words that may not be written as raw identifiers. -/
def pathWords : List String := ["self", "super", "crate"]

/-- Spell a name in small letters, its words separated by underscores. -/
def snakeCase (s : String) : String :=
  let word := String.ofList (guardDigit (breakWords false (clean s)))
  if word ∈ pathWords then word ++ "_"
  else if word ∈ rawWords then "r#" ++ word
  else word

end CanonicalCwl.Identifier
