/-!
# ArrayEquations — the parts of a binary64 number

A finite binary64 number is a sign, a whole mantissa and a power of two; this module
reads them off the bits.

## Main definitions

* `FloatParts` — sign, mantissa and exponent, or what else a number may be.
* `floatParts` — the parts of a number.
* `integerValue?`, `naturalValue?` — the whole number that a number is, if it is one.
-/

namespace ArrayEquations

/-- What a binary64 number is. -/
inductive FloatParts where
  | nan
  | infinite (negative : Bool)
  /-- `mantissa * 2 ^ exponent`, negated if `negative`; zero has both signs. -/
  | finite (negative : Bool) (mantissa : Nat) (exponent : Int)
  deriving DecidableEq, Repr

/-- The leading bit of a mantissa, which is not stored. -/
def hiddenBit : Nat := Nat.pow 2 52

/-- Reads a number's bits: a sign, eleven bits of biased exponent, 52 bits of fraction.
The leading bit of a mantissa is not stored unless the exponent field is zero. -/
def floatParts (x : Float) : FloatParts :=
  let bits : Nat := x.toBits.toNat
  let negative := bits / Nat.pow 2 63 % 2 == 1
  let field : Nat := bits / hiddenBit % 2048
  let fraction : Nat := bits % hiddenBit
  if field = 2047 then
    if fraction = 0 then .infinite negative else .nan
  else if field = 0 then .finite negative fraction (-1074)
  else .finite negative (hiddenBit + fraction) ((field : Int) - 1075)

/-- Whether the number is less than zero; a zero of either sign is not. -/
def isNegative (x : Float) : Bool :=
  match floatParts x with
  | .nan => false
  | .infinite negative => negative
  | .finite negative mantissa _ => negative && mantissa != 0

/-- The whole number `mantissa * 2 ^ exponent`, if it is one. -/
def wholeMagnitude? (mantissa : Nat) (exponent : Int) : Option Nat :=
  match exponent with
  | .ofNat e => some (mantissa * Nat.pow 2 e)
  | .negSucc e =>
    let divisor := Nat.pow 2 (e + 1)
    if mantissa % divisor = 0 then some (mantissa / divisor) else none

/-- The whole number that `x` is, if it is one; a zero of either sign is `0`. -/
def integerValue? (x : Float) : Option Int :=
  match floatParts x with
  | .finite negative mantissa exponent =>
    (wholeMagnitude? mantissa exponent).map fun n => if negative then -(n : Int) else n
  | _ => none

/-- The natural number that `x` is, if it is one; a zero of either sign is `0`. -/
def naturalValue? (x : Float) : Option Nat :=
  (integerValue? x).bind fun n => if 0 ≤ n then some n.toNat else none

end ArrayEquations
