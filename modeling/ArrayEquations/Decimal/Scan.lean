/-!
# ArrayEquations — scanning numerals

The optional parts of a numeral that stands at the start of a text.

## Main definitions

* `readFraction`, `readExponent` — the digits behind a point, and an exponent.
-/

namespace ArrayEquations

/-- The exponent of a numeral, if an `e` stands here; none if no digit follows it. -/
def readExponent : List Char → Option (Option (Bool × List Char) × List Char)
  | c :: rest =>
    if c = 'e' || c = 'E' then
      let (negative, rest) :=
        match rest with
        | '+' :: rest => (false, rest)
        | '-' :: rest => (true, rest)
        | rest => (false, rest)
      let digits := rest.takeWhile Char.isDigit
      if digits.isEmpty then none
      else some (some (negative, digits), rest.dropWhile Char.isDigit)
    else some (none, c :: rest)
  | [] => some (none, [])

/-- The digits behind a point, if one stands here; none if no digit follows it. -/
def readFraction : List Char → Option (List Char × List Char)
  | '.' :: rest =>
    let digits := rest.takeWhile Char.isDigit
    if digits.isEmpty then none else some (digits, rest.dropWhile Char.isDigit)
  | cs => some ([], cs)

end ArrayEquations
