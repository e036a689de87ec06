/-!
# Code Point Ranges

A character class as a list of closed ranges of code points.
-/

namespace CanonicalCwl.Text

/-- Closed ranges of code points. -/
abbrev Ranges := List (Nat × Nat)

/-- Whether the code point of a character lies in one of the ranges. -/
def Ranges.has (rs : Ranges) (c : Char) : Bool :=
  List.any rs fun (lo, hi) => lo ≤ c.toNat && c.toNat ≤ hi

end CanonicalCwl.Text
