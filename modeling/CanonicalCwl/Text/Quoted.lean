import CanonicalCwl.Text.Extender
import CanonicalCwl.Text.Unprintable

/-!
# Quoted Text

Text between double quotes, as diagnostics show it. The quote, the backslash and four control
characters have escapes of two characters; a character that is unprintable or extends the one
before it is written by its code point.
-/

namespace CanonicalCwl.Text

/-- The form of one character inside the quotes. -/
def quotedChar (c : Char) : List Char :=
  match c with
  | '\x00' => ['\\', '0']
  | '\t' => ['\\', 't']
  | '\n' => ['\\', 'n']
  | '\r' => ['\\', 'r']
  | '"' => ['\\', '"']
  | '\\' => ['\\', '\\']
  | c =>
      if isExtender c || isUnprintable c then
        ['\\', 'u', '\x7b'] ++ Nat.toDigits 16 c.toNat ++ ['\x7d']
      else [c]

/-- A text between quotes. -/
def quoted (s : String) : String :=
  String.ofList ('"' :: s.toList.flatMap quotedChar ++ ['"'])

end CanonicalCwl.Text
