/-!
# ArrayEquations — sets of characters

A set of characters given by ranges of code points, the form in which the Unicode
character database lists its properties.
-/

namespace ArrayEquations

/-- Closed ranges of code points, ascending. -/
abbrev CodePointRanges := List (Nat × Nat)

/-- Whether a character lies in one of the ranges. -/
def CodePointRanges.contains (ranges : CodePointRanges) (c : Char) : Bool :=
  ranges.any fun (first, last) => first ≤ c.toNat && c.toNat ≤ last

end ArrayEquations
