import ArrayEquations.Decimal.Numeral
import ArrayEquations.Decimal.Shortest

/-!
# ArrayEquations — numbers as text

Two layouts of the shortest decimal of a number.

* The plain layout never has an exponent: `100000000000000000000`, `0.00001`, `-0`,
  `NaN`, `inf`. Ties between equally near decimals go away from zero.
* The document layout keeps a point in whole numbers and has an exponent beyond
  sixteen digits: `2.0`, `1e+16`, `1.5e-10`. Ties go to the even digit. Numbers that
  are not finite have no numeral in a document.

A literal in a formula is a whole number without a point as long as it is below
`10 ^ 15`, and plain beyond.

## Main definitions

* `plainText`, `documentNumeral?`, `literalText`.
-/

namespace ArrayEquations

/-- A run of zeros. -/
def zeros (n : Nat) : List Char := List.replicate n '0'

/-- The sign of a number as it is written. -/
def signText (negative : Bool) : String := if negative then "-" else ""

/-- Digits with a point before the last `places`, and a zero before the point if no digit
would stand there. -/
def pointed (negative : Bool) (digits : List Char) (places : Nat)
    (exponent : Option (Bool × List Char)) : Numeral :=
  let digits := zeros (places + 1 - digits.length) ++ digits
  let wholes := digits.length - places
  ⟨negative, digits.take wholes, digits.drop wholes, exponent⟩

namespace Decimal

/-- The decimal without an exponent: `1200`, `0.0012`. -/
def positional (negative : Bool) (d : Decimal) : Numeral :=
  match d.exponent with
  | .ofNat e => ⟨negative, digitsOf d.digits ++ zeros e, [], none⟩
  | .negSucc e => pointed negative (digitsOf d.digits) (e + 1) none

/-- The decimal with one digit before the point and an exponent: `1.2e+3`, `5e-324`. -/
def scientific (negative : Bool) (d : Decimal) : Numeral :=
  let digits := digitsOf d.digits
  let places := digits.length - 1
  let exponent := d.exponent + places
  pointed negative digits places (some (exponent < 0, digitsOf exponent.natAbs))

/-- The power of ten of the first digit. -/
def leading (d : Decimal) : Int := d.exponent + (((digitsOf d.digits).length : Int) - 1)

/-- The decimal as documents have it: positional for leading powers from `-5` to `15`, with a
point even in a whole number, and scientific beyond. -/
def inDocument (negative : Bool) (d : Decimal) : Numeral :=
  if -5 ≤ d.leading ∧ d.leading ≤ 15 then
    let n := d.positional negative
    if n.fraction.isEmpty then { n with fraction := ['0'] } else n
  else d.scientific negative

end Decimal

/-- A number without an exponent, in the fewest digits that read back. -/
def plainText (x : Float) : String :=
  match floatParts x with
  | .nan => "NaN"
  | .infinite negative => signText negative ++ "inf"
  | .finite negative 0 _ => signText negative ++ "0"
  | .finite negative mantissa exponent =>
    ((shortestDecimal .away mantissa exponent).positional negative).text

/-- A number as documents have it, in the fewest digits that read back. -/
def documentNumeral? (x : Float) : Option Numeral :=
  match floatParts x with
  | .nan | .infinite _ => none
  | .finite negative 0 _ => some ⟨negative, ['0'], ['0'], none⟩
  | .finite negative mantissa exponent =>
    some ((shortestDecimal .toEven mantissa exponent).inDocument negative)

/-- A literal of a formula: whole numbers below `10 ^ 15` without a point, zero without a
sign, and every other number plain. -/
def literalText (x : Float) : String :=
  match integerValue? x with
  | some n => if n.natAbs < Nat.pow 10 15 then toString n else plainText x
  | none => plainText x

end ArrayEquations
