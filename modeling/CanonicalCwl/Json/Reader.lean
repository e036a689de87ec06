import CanonicalCwl.Value

/-!
# Reading JSON Text

A total reader of JSON text. A number without fraction and exponent that fits 64 bits is an
integer, except negative zero, which only a float can hold; every other number is the nearest
float, and one too large for the format is refused. A repeated key keeps its first position
and takes the last value.

The reader is given as much fuel as the text has characters: every step into a value, to the
next item or to the next entry reads at least one.
-/

namespace CanonicalCwl.Json

/-- Skip the blanks of the format. -/
def skipBlanks (cs : List Char) : List Char :=
  cs.dropWhile fun c => c == ' ' || c == '\n' || c == '\t' || c == '\r'

/-- The value of a hexadecimal digit of either case. -/
def hexValue? (c : Char) : Option Nat :=
  if '0' ≤ c ∧ c ≤ '9' then some (c.toNat - '0'.toNat)
  else if 'a' ≤ c ∧ c ≤ 'f' then some (c.toNat - 'a'.toNat + 10)
  else if 'A' ≤ c ∧ c ≤ 'F' then some (c.toNat - 'A'.toNat + 10)
  else none

/-- The value of four hexadecimal digits. -/
def hex4? (a b c d : Char) : Option Nat := do
  return (((← hexValue? a) * 16 + (← hexValue? b)) * 16 + (← hexValue? c)) * 16 + (← hexValue? d)

/-- The character that a two-character escape stands for. -/
def shortEscape? : Char → Option Char
  | '"' => some '"'
  | '\\' => some '\\'
  | '/' => some '/'
  | 'b' => some '\x08'
  | 'f' => some '\x0c'
  | 'n' => some '\n'
  | 'r' => some '\r'
  | 't' => some '\t'
  | _ => none

/-- Read the rest of a string after its opening quote; `done` holds the characters so far,
last one first. A code point beyond the basic plane is a pair of surrogates. -/
def readString (done : List Char) : List Char → Option (String × List Char)
  | '"' :: rest => some (String.ofList done.reverse, rest)
  | '\\' :: 'u' :: a :: b :: c :: d :: rest => do
      let u ← hex4? a b c d
      if 0xD800 ≤ u ∧ u < 0xDC00 then
        match rest with
        | '\\' :: 'u' :: a' :: b' :: c' :: d' :: rest => do
            let u' ← hex4? a' b' c' d'
            if 0xDC00 ≤ u' ∧ u' < 0xE000 then
              readString (Char.ofNat (0x10000 + (u - 0xD800) * 0x400 + (u' - 0xDC00)) :: done) rest
            else none
        | _ => none
      else if 0xDC00 ≤ u ∧ u < 0xE000 then none
      else readString (Char.ofNat u :: done) rest
  | '\\' :: c :: rest => do
      let e ← shortEscape? c
      readString (e :: done) rest
  | c :: rest => if c.toNat < 0x20 then none else readString (c :: done) rest
  | [] => none

/-- The number written by decimal digits. -/
def digitsValue (ds : List Char) : Nat :=
  ds.foldl (fun n c => n * 10 + (c.toNat - '0'.toNat)) 0

/-- The number written by a sign, whole digits, and the optional fraction digits and
exponent. -/
def numberOf (negative : Bool) (whole : List Char) (fraction : Option (List Char))
    (exponent : Option Int) : Option Value :=
  let n : Int := if negative then -(digitsValue whole : Int) else digitsValue whole
  if fraction.isNone && exponent.isNone && !(negative && n == 0) &&
      decide (-2 ^ 63 ≤ n ∧ n < 2 ^ 63) then
    some (.int (Int64.ofInt n))
  else
    let places := fraction.getD []
    (Binary64.ofDecimal
      ⟨negative, digitsValue (whole ++ places), exponent.getD 0 - places.length⟩).map .float

/-- Read an exponent, if there is one. -/
def readExponent : List Char → Option (Option Int × List Char)
  | c :: rest =>
      if c = 'e' ∨ c = 'E' then
        let (negative, rest) := match rest with
          | '-' :: rest => (true, rest)
          | '+' :: rest => (false, rest)
          | rest => (false, rest)
        let ds := rest.takeWhile Char.isDigit
        if ds.isEmpty then none
        else
          let n : Int := digitsValue ds
          some (some (if negative then -n else n), rest.dropWhile Char.isDigit)
      else some (none, c :: rest)
  | [] => some (none, [])

/-- Read a number. A leading zero stands alone. -/
def readNumber (cs : List Char) : Option (Value × List Char) := do
  let (negative, cs) := match cs with
    | '-' :: rest => (true, rest)
    | cs => (false, cs)
  let whole := cs.takeWhile Char.isDigit
  let rest := cs.dropWhile Char.isDigit
  if whole.isEmpty || (whole.head? == some '0' && whole.length != 1) then none
  let (fraction, rest) ← match rest with
    | '.' :: after =>
        let ds := after.takeWhile Char.isDigit
        if ds.isEmpty then none else some (some ds, after.dropWhile Char.isDigit)
    | rest => some (none, rest)
  let (exponent, rest) ← readExponent rest
  return (← numberOf negative whole fraction exponent, rest)

/-- Read a fixed word. -/
def readWord (word : String) (v : Value) (cs : List Char) : Option (Value × List Char) :=
  if word.toList.isPrefixOf cs then some (v, cs.drop word.length) else none

mutual

/-- Read a value that follows optional blanks. -/
def readValue : Nat → List Char → Option (Value × List Char)
  | 0, _ => none
  | fuel + 1, cs =>
      match skipBlanks cs with
      | '"' :: rest => do
          let (s, rest) ← readString [] rest
          return (.string s, rest)
      | '[' :: rest =>
          match skipBlanks rest with
          | ']' :: rest => some (.sequence [], rest)
          | rest => readItems fuel [] rest
      | '\x7b' :: rest =>
          match skipBlanks rest with
          | '\x7d' :: rest => some (.mapping [], rest)
          | rest => readEntries fuel [] rest
      | 't' :: rest => readWord "rue" (.bool true) rest
      | 'f' :: rest => readWord "alse" (.bool false) rest
      | 'n' :: rest => readWord "ull" .null rest
      | rest => readNumber rest

/-- Read the rest of a sequence; `done` holds the items so far, last one first. -/
def readItems : Nat → List Value → List Char → Option (Value × List Char)
  | 0, _, _ => none
  | fuel + 1, done, cs => do
      let (v, rest) ← readValue fuel cs
      match skipBlanks rest with
      | ',' :: rest => readItems fuel (v :: done) rest
      | ']' :: rest => some (.sequence (v :: done).reverse, rest)
      | _ => none

/-- Read the rest of a mapping; `done` holds the entries so far. -/
def readEntries : Nat → Mapping → List Char → Option (Value × List Char)
  | 0, _, _ => none
  | fuel + 1, done, cs =>
      match skipBlanks cs with
      | '"' :: rest => do
          let (key, rest) ← readString [] rest
          match skipBlanks rest with
          | ':' :: rest => do
              let (v, rest) ← readValue fuel rest
              let done := Entries.insert done key v
              match skipBlanks rest with
              | ',' :: rest => readEntries fuel done rest
              | '\x7d' :: rest => some (.mapping done, rest)
              | _ => none
          | _ => none
      | _ => none

end

/-- Read a whole text as one value; only blanks may follow it. -/
def read (text : String) : Option Value := do
  let cs := text.toList
  let (v, rest) ← readValue (cs.length + 1) cs
  if (skipBlanks rest).isEmpty then some v else none

end CanonicalCwl.Json
