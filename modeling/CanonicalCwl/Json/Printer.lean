import CanonicalCwl.Binary64.Shortest
import CanonicalCwl.Value

/-!
# JSON Text of a Tree

Two layouts of one text: compact, without any blank, and pretty, with two blanks of
indentation a level. Both keep the order of the entries, write an empty collection as a pair
of brackets, and escape exactly the quote, the backslash and the control characters below the
blank.
-/

namespace CanonicalCwl.Json

/-- Numbers are plain from `1e-5` up to `1e15` and carry the sign of a greater exponent. -/
def floatStyle : FloatStyle := ⟨-5, 15, true⟩

/-- A lower-case hexadecimal digit. -/
def hexDigit (n : Nat) : Char := (Nat.toDigits 16 n).headD '0'

/-- The escape of one character inside a string. -/
def escapeChar (c : Char) : List Char :=
  match c with
  | '"' => ['\\', '"']
  | '\\' => ['\\', '\\']
  | '\n' => ['\\', 'n']
  | '\t' => ['\\', 't']
  | '\r' => ['\\', 'r']
  | '\x08' => ['\\', 'b']
  | '\x0c' => ['\\', 'f']
  | c =>
      if c.toNat < 0x20 then ['\\', 'u', '0', '0', hexDigit (c.toNat / 16), hexDigit (c.toNat % 16)]
      else [c]

/-- A string with its quotes. -/
def quote (s : String) : String :=
  String.ofList ('"' :: s.toList.flatMap escapeChar ++ ['"'])

/-- The text of a node without children; empty for a collection. -/
def scalarText : Value → String
  | .null => "null"
  | .bool true => "true"
  | .bool false => "false"
  | .int i => toString i.toInt
  | .float x => floatStyle.write x
  | .string s => quote s
  | .sequence _ | .mapping _ => ""

mutual

/-- The compact text of a tree. -/
def compact : Value → String
  | .sequence items => "[" ++ compactItems items ++ "]"
  | .mapping entries => "\x7b" ++ compactEntries entries ++ "\x7d"
  | v => scalarText v

/-- The compact texts of the items, separated by commas. -/
def compactItems : List Value → String
  | [] => ""
  | [v] => compact v
  | v :: rest => compact v ++ "," ++ compactItems rest

/-- The compact texts of the entries, separated by commas. -/
def compactEntries : List (String × Value) → String
  | [] => ""
  | [(k, v)] => quote k ++ ":" ++ compact v
  | (k, v) :: rest => quote k ++ ":" ++ compact v ++ "," ++ compactEntries rest

end

/-- A line break followed by the indentation of a level. -/
def newLine (level : Nat) : String := String.ofList ('\n' :: List.replicate (2 * level) ' ')

mutual

/-- The pretty text of a tree that stands at a level of indentation. -/
def prettyAt (level : Nat) : Value → String
  | .sequence [] => "[]"
  | .sequence items => "[" ++ prettyItems (level + 1) items ++ newLine level ++ "]"
  | .mapping [] => "\x7b\x7d"
  | .mapping entries => "\x7b" ++ prettyEntries (level + 1) entries ++ newLine level ++ "\x7d"
  | v => scalarText v

/-- The pretty texts of the items, one a line. -/
def prettyItems (level : Nat) : List Value → String
  | [] => ""
  | [v] => newLine level ++ prettyAt level v
  | v :: rest => newLine level ++ prettyAt level v ++ "," ++ prettyItems level rest

/-- The pretty texts of the entries, one a line. -/
def prettyEntries (level : Nat) : List (String × Value) → String
  | [] => ""
  | [(k, v)] => newLine level ++ quote k ++ ": " ++ prettyAt level v
  | (k, v) :: rest =>
      newLine level ++ quote k ++ ": " ++ prettyAt level v ++ "," ++ prettyEntries level rest

end

/-- The pretty text of a tree. -/
def pretty (v : Value) : String := prettyAt 0 v

end CanonicalCwl.Json
