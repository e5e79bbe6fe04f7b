/-!
# ArrayEquations — decimal numerals

A number as it is written: a sign, digits before and after the point, and an exponent.

## Main definitions

* `Numeral` — the parts, and `Numeral.text`, the numeral itself.
* `digitValue`, `digitsValue` — what digits stand for.
* `wordBound` — where whole numbers of 64 bits end.
-/

namespace ArrayEquations

/-- The value of a decimal digit. -/
def digitValue (c : Char) : Nat := c.toNat - '0'.toNat

/-- The number that a row of decimal digits stands for. -/
def digitsValue (cs : List Char) : Nat := cs.foldl (fun n c => 10 * n + digitValue c) 0

/-- The bound of whole numbers of 64 bits: two to the power of 64. -/
def wordBound : Nat := Nat.pow 2 64

/-- The decimal digits of a number. -/
def digitsOf (n : Nat) : List Char := Nat.toDigits 10 n

/-- A number as it is written. -/
structure Numeral where
  negative : Bool
  /-- The digits before the point. -/
  whole : List Char
  /-- The digits after the point; none if there is no point. -/
  fraction : List Char
  /-- Whether the exponent is negative, and its digits. -/
  exponent : Option (Bool × List Char)
  deriving DecidableEq, Repr

namespace Numeral

/-- The numeral of a natural number. -/
def ofNat (n : Nat) : Numeral := ⟨false, digitsOf n, [], none⟩

/-- The characters of the exponent. -/
def exponentChars : Option (Bool × List Char) → List Char
  | none => []
  | some (negative, digits) => 'e' :: (if negative then '-' else '+') :: digits

/-- The characters of a numeral. -/
def chars (n : Numeral) : List Char :=
  (if n.negative then ['-'] else []) ++ n.whole ++
    (if n.fraction.isEmpty then [] else '.' :: n.fraction) ++ exponentChars n.exponent

/-- The numeral as text. -/
def text (n : Numeral) : String := String.ofList n.chars

/-- The digits of the mantissa and the power of ten that it is multiplied by. -/
def scaled (n : Numeral) : Nat × Int :=
  let shift : Int :=
    match n.exponent with
    | none => 0
    | some (negative, digits) =>
      let e : Int := digitsValue digits
      if negative then -e else e
  (digitsValue (n.whole ++ n.fraction), shift - n.fraction.length)

/-- The binary64 number nearest to the numeral, ties to even. An exponent that takes the number
out of range, whatever the digits are, is cut where this is certain. -/
def toFloat (n : Numeral) : Float :=
  let (mantissa, exponent) := n.scaled
  let certain := 400 + (n.whole ++ n.fraction).length
  let magnitude := Float.ofScientific mantissa (exponent < 0) (min exponent.natAbs certain)
  if n.negative then -magnitude else magnitude

end Numeral

end ArrayEquations
