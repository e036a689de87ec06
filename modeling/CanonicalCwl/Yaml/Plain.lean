import CanonicalCwl.Json.Reader

/-!
# The Meaning of Plain Scalars

A scalar that is written without quotes may be null, a truth value or a number; every other one
is a text. Integers are decimal, hexadecimal, octal or binary, with a sign; decimal digits with
a leading zero are no number.

- `Plain.meaning` tells what a plain scalar means.
-/

namespace CanonicalCwl.Yaml

/-- What a plain scalar means. -/
inductive Plain where
  | null
  | bool (b : Bool)
  | int (n : Int)
  | float (x : Binary64)
  /-- An infinity or a not-a-number, which no document holds. -/
  | unbounded
  | text

namespace Plain

/-- The words for null. -/
def nullWords : List String := ["null", "Null", "NULL", "~"]

/-- The words for a truth value. -/
def boolWord? : String → Option Bool
  | "true" | "True" | "TRUE" => some true
  | "false" | "False" | "FALSE" => some false
  | _ => none

/-- Take a sign off: whether it is a minus sign, and the rest. -/
def splitSign : List Char → Bool × List Char
  | '-' :: rest => (true, rest)
  | '+' :: rest => (false, rest)
  | cs => (false, cs)

/-- Decimal digits that begin with a needless zero, after a sign. -/
def hasLeadingZero (cs : List Char) : Bool :=
  match (splitSign cs).2 with
  | '0' :: rest => !rest.isEmpty && rest.all Char.isDigit
  | _ => false

/-- The value of a digit in a base of at most sixteen. -/
def digit? (base : Nat) (c : Char) : Option Nat :=
  (Json.hexValue? c).bind fun d => if d < base then some d else none

/-- The number that one or more digits of a base write. -/
def natural? (base : Nat) : List Char → Option Nat
  | [] => none
  | cs => cs.foldlM (fun n c => (digit? base c).map (n * base + ·)) 0

/-- The number that digits write after their base. -/
def magnitude? : List Char → Option Nat
  | '0' :: 'x' :: rest => natural? 16 rest
  | '0' :: 'o' :: rest => natural? 8 rest
  | '0' :: 'b' :: rest => natural? 2 rest
  | cs => natural? 10 cs

/-- The integer that a scalar writes, however large. -/
def integer? (cs : List Char) : Option Int :=
  if hasLeadingZero cs then none
  else
    let (negative, cs) := splitSign cs
    (magnitude? cs).map fun n => if negative then -(n : Int) else n

/-- The number of 128 bits that a signed scalar may reach; integers beyond it are read as
floats. -/
def fits128 (n : Int) : Bool := -2 ^ 127 ≤ n && n < 2 ^ 128

/-- The words for the two infinities and for no number, without a plus sign. -/
def unboundedWords : List String :=
  [".inf", ".Inf", ".INF", "-.inf", "-.Inf", "-.INF", "+.inf", "+.Inf", "+.INF",
    ".nan", ".NaN", ".NAN"]

/-- The decimal that a scalar writes: digits around a point, at least one of them, and an
exponent. -/
def decimal? (cs : List Char) : Option Decimal := do
  let (negative, cs) := splitSign cs
  let whole := cs.takeWhile Char.isDigit
  let rest := cs.dropWhile Char.isDigit
  let (places, rest) := match rest with
    | '.' :: rest => (rest.takeWhile Char.isDigit, rest.dropWhile Char.isDigit)
    | rest => ([], rest)
  let (exponent, rest) ← Json.readExponent rest
  if (whole ++ places).isEmpty || !rest.isEmpty then none
  return ⟨negative, Json.digitsValue (whole ++ places), exponent.getD 0 - places.length⟩

/-- The finite float that a scalar writes. -/
def float? (cs : List Char) : Option Binary64 := (decimal? cs).bind Binary64.ofDecimal

/-- What a plain scalar means. -/
def meaning (s : String) : Plain :=
  if s.isEmpty || s ∈ nullWords then null
  else
    match boolWord? s, (integer? s.toList).filter fits128, float? s.toList with
    | some b, _, _ => bool b
    | none, some n, _ => int n
    -- Digits after a needless zero are no integer, and no float either.
    | none, none, some x => if hasLeadingZero s.toList then text else float x
    | none, none, none => if s ∈ unboundedWords then unbounded else text

end Plain

end CanonicalCwl.Yaml
