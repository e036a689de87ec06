/-!
# Finite Binary64 Numbers

The finite numbers of the binary64 format, by sign, biased exponent and fraction. A document
never holds an infinity or a not-a-number, so the type has none, and equality is equality of
bits: the two zeros differ.

- `Binary64.ofRatio` rounds a quotient of natural numbers to the nearest number, a tie to the
  even neighbour, and fails when that number would not be finite.
- `Binary64.ofDecimal` does the same for a decimal.
-/

namespace CanonicalCwl

-- Powers are those of the core library, whatever else a module imports, so that numbers mean
-- the same everywhere.
attribute [default_instance 20000, instance (high)] instPowNat

/-- A finite binary64 number. Its magnitude is `mantissa * 2 ^ scale / 2 ^ 1075`. -/
structure Binary64 where
  /-- The sign bit. -/
  negative : Bool
  /-- The biased exponent; zero marks the subnormal numbers. -/
  exponent : Fin 2047
  /-- The fraction bits. -/
  fraction : Fin (2 ^ 52)
  deriving DecidableEq

/-- A decimal: `coefficient * 10 ^ exponent`, with a sign that zero keeps too. -/
structure Decimal where
  /-- Whether a minus sign was written. -/
  negative : Bool
  /-- The digits as one natural number. -/
  coefficient : Nat
  /-- The power of ten of the last digit. -/
  exponent : Int
  deriving DecidableEq

namespace Binary64

/-- Zero, with a sign. -/
def zero (negative : Bool) : Binary64 := ⟨negative, 0, 0⟩

instance : Inhabited Binary64 := ⟨zero false⟩

/-- The significand, with the implicit bit of the normal numbers. -/
def mantissa (x : Binary64) : Nat :=
  if x.exponent.val = 0 then x.fraction.val else x.fraction.val + 2 ^ 52

/-- The exponent of the last significand bit, in units of `2 ^ (-1075)`. -/
def scale (x : Binary64) : Nat := max x.exponent.val 1

/-- The quotient rounded to the nearest natural number, a tie to the even one. -/
def roundHalfEven (num den : Nat) : Nat :=
  let q := num / den
  let r := num % den
  if den < 2 * r ∨ (den = 2 * r ∧ q % 2 = 1) then q + 1 else q

/-- The number with significand `m` at scale `s`, if the format has it. -/
def ofParts (negative : Bool) (m s : Nat) : Option Binary64 :=
  if h : m < 2 ^ 52 then
    some ⟨negative, 0, ⟨m, h⟩⟩
  else if h : s < 2047 ∧ m - 2 ^ 52 < 2 ^ 52 then
    some ⟨negative, ⟨s, h.1⟩, ⟨m - 2 ^ 52, h.2⟩⟩
  else none

/-- The number nearest to `num / den`, a tie to the even neighbour; `none` on overflow. -/
def ofRatio (negative : Bool) (num den : Nat) : Option Binary64 :=
  let scaled := num * 2 ^ 1075
  let s := max 1 ((scaled / den).log2 - 52)
  let m := roundHalfEven scaled (den * 2 ^ s)
  -- Rounding up may carry into the next power of two.
  if m = 2 ^ 53 then ofParts negative (2 ^ 52) (s + 1) else ofParts negative m s

/-- The number nearest to a 64-bit integer. -/
def ofInt (i : Int64) : Binary64 :=
  (ofRatio (i.toInt < 0) i.toInt.natAbs 1).getD (zero false)

/-- The number nearest to a decimal; `none` on overflow. Exponents far outside the format are
settled without computing the power of ten. -/
def ofDecimal (d : Decimal) : Option Binary64 :=
  if d.coefficient = 0 then some (zero d.negative)
  else if 400 < d.exponent then none
  else if d.exponent + (d.coefficient.log2 + 1) < -400 then some (zero d.negative)
  else if 0 ≤ d.exponent then
    ofRatio d.negative (d.coefficient * 10 ^ d.exponent.toNat) 1
  else
    ofRatio d.negative d.coefficient (10 ^ (-d.exponent).toNat)

end Binary64

end CanonicalCwl
