import CanonicalCwl.Binary64.Basic

/-!
# Shortest Decimals

The decimal with the fewest digits that rounds to a given binary64 number, and among those
the one nearest to the number. The numbers that round to `x` form an interval around it whose
ends belong to it exactly when the significand of `x` is even; if a point of a decimal grid
lies in that interval, so does one of the two grid neighbours of `x`.

- `Binary64.shortest` gives the decimal.
- `FloatStyle.write` writes it, plainly or with an exponent.
-/

namespace CanonicalCwl

namespace Binary64

/-- Four times the magnitude, in units of `2 ^ (-1075)`. -/
def quarters (x : Binary64) : Nat := 4 * x.mantissa * 2 ^ x.scale

/-- The lower end of the rounding interval, in the unit of `quarters`. Below a power of two
the neighbour is half as far away. -/
def lowerEnd (x : Binary64) : Nat :=
  if x.mantissa = 2 ^ 52 ∧ 1 < x.scale then (4 * x.mantissa - 1) * 2 ^ x.scale
  else (4 * x.mantissa - 2) * 2 ^ x.scale

/-- The upper end of the rounding interval, in the unit of `quarters`. -/
def upperEnd (x : Binary64) : Nat := (4 * x.mantissa + 2) * 2 ^ x.scale

/-- The denominator of `quarters`. -/
def quarterUnit : Nat := 2 ^ 1077

/-- How often `num` has to be multiplied by ten to reach `den`, at most `fuel` times. -/
def tenfolds : Nat → Nat → Nat → Nat
  | 0, _, _ => 0
  | fuel + 1, num, den => if den ≤ num then 0 else tenfolds fuel (num * 10) den + 1

/-- The decimal exponent: the power of ten of the first digit. -/
def decimalExponent (x : Binary64) : Int :=
  if quarterUnit ≤ x.quarters then
    ((Nat.toDigits 10 (x.quarters / quarterUnit)).length : Int) - 1
  else
    -(tenfolds 400 x.quarters quarterUnit : Int)

/-- The point nearest to `x` of the decimal grid `10 ^ power` that lies in the rounding
interval of `x`; of two equally near ones the even one. -/
def gridPoint? (x : Binary64) (power : Int) : Option Nat :=
  let up := 10 ^ (-power).toNat
  let unit := quarterUnit * 10 ^ power.toNat
  let exact := x.quarters * up
  let inside (c : Nat) : Bool :=
    if x.mantissa % 2 = 0 then x.lowerEnd * up ≤ c * unit ∧ c * unit ≤ x.upperEnd * up
    else x.lowerEnd * up < c * unit ∧ c * unit < x.upperEnd * up
  let below := exact / unit
  let rest := exact % unit
  match inside below, inside (below + 1) with
  | true, true =>
      -- Both neighbours round to `x`, and the nearer one is written.
      if 2 * rest < unit ∨ (2 * rest = unit ∧ below % 2 = 0) then some below
      else some (below + 1)
  | true, false => some below
  | false, true => some (below + 1)
  | false, false => none

/-- Drop trailing zeros of a coefficient, at most `fuel` of them. -/
def dropZeros : Nat → Nat → Int → Nat × Int
  | 0, c, e => (c, e)
  | fuel + 1, c, e => if c % 10 = 0 then dropZeros fuel (c / 10) (e + 1) else (c, e)

/-- The coefficient and exponent of the shortest decimal, trying `n`, `n + 1`, … digits. -/
def shortestFrom (x : Binary64) (e : Int) : Nat → Nat → Nat × Int
  | 0, _ => (0, 0)
  | fuel + 1, n =>
      match x.gridPoint? (e + 1 - n) with
      | some c => dropZeros (n + 1) c (e + 1 - n)
      | none => shortestFrom x e fuel (n + 1)

/-- The decimal with the fewest digits that rounds to `x`, nearest to `x` among those.
Seventeen digits always suffice. -/
def shortest (x : Binary64) : Decimal :=
  if x.mantissa = 0 then ⟨x.negative, 0, 0⟩
  else
    let (c, e) := shortestFrom x x.decimalExponent 17 1
    ⟨x.negative, c, e⟩

end Binary64

/-- How a number with a fraction part is written. -/
structure FloatStyle where
  /-- The least decimal exponent that is written plainly. -/
  plainFrom : Int
  /-- The greatest decimal exponent that is written plainly. -/
  plainTo : Int
  /-- Whether a positive exponent carries a plus sign. -/
  plusSign : Bool
  deriving DecidableEq

namespace FloatStyle

/-- Digits written plainly: a whole number keeps one zero after the point. -/
def plain (digits : List Char) (exponent : Int) : List Char :=
  if 0 ≤ exponent then digits ++ List.replicate exponent.toNat '0' ++ ['.', '0']
  else
    let places := (-exponent).toNat
    if places < digits.length then
      digits.take (digits.length - places) ++ '.' :: digits.drop (digits.length - places)
    else
      '0' :: '.' :: (List.replicate (places - digits.length) '0' ++ digits)

/-- Digits written with an exponent; a single digit has no point. -/
def scientific (style : FloatStyle) (digits : List Char) (e : Int) : List Char :=
  let fraction := digits.drop 1
  let sign := if e < 0 then ['-'] else if style.plusSign then ['+'] else []
  digits.take 1 ++ (if fraction.isEmpty then [] else '.' :: fraction) ++
    'e' :: (sign ++ Nat.toDigits 10 e.natAbs)

/-- Write the shortest decimal of a number. -/
def write (style : FloatStyle) (x : Binary64) : String :=
  let d := x.shortest
  let digits := Nat.toDigits 10 d.coefficient
  let e := d.exponent + digits.length - 1
  let body :=
    if style.plainFrom ≤ e ∧ e ≤ style.plainTo then plain digits d.exponent
    else style.scientific digits e
  String.ofList (if d.negative then '-' :: body else body)

end FloatStyle

end CanonicalCwl
