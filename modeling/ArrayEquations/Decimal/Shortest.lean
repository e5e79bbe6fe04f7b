import ArrayEquations.Decimal.Parts

/-!
# ArrayEquations — shortest decimals

The decimal with the fewest digits that reads back to a given binary64 number, and
among those the nearest to it. A decimal reads back if it lies in the interval of
reals that round to the number; the ends of that interval belong to it exactly when
the mantissa is even.

The search goes from one digit to seventeen. On each grid of decimals it tests the two
neighbours of the number in exact natural arithmetic: if any point of the grid reads
back, one of them does.

## Main definitions

* `Tie` — which neighbour wins when both are equally near.
* `Decimal` — `digits * 10 ^ exponent`.
* `shortestDecimal` — the shortest decimal of a positive number.
-/

namespace ArrayEquations

/-- Which of two equally near neighbours is taken. -/
inductive Tie where
  | away
  | toEven
  deriving DecidableEq, Repr

/-- The number `digits * 10 ^ exponent`. -/
structure Decimal where
  digits : Nat
  exponent : Int
  deriving DecidableEq, Repr

/-- A positive number and the interval that rounds to it, over a common denominator. -/
structure RoundingInterval where
  value : Nat
  low : Nat
  high : Nat
  denominator : Nat
  /-- Whether the ends belong to the interval. -/
  closed : Bool
  deriving DecidableEq, Repr

namespace RoundingInterval

/-- The interval of `mantissa * 2 ^ exponent`. It reaches halfway to either neighbour; below
a power of two the neighbours lie twice as close, except next to the subnormal numbers. -/
def ofParts (mantissa : Nat) (exponent : Int) : RoundingInterval :=
  let below := if mantissa = hiddenBit && exponent ≠ -1074 then 1 else 2
  let scale := Nat.pow 2 (exponent - 2).toNat
  { value := 4 * mantissa * scale
    low := (4 * mantissa - below) * scale
    high := (4 * mantissa + 2) * scale
    denominator := Nat.pow 2 (2 - exponent).toNat
    closed := mantissa % 2 = 0 }

/-- The interval in units of `10 ^ k`. -/
def inUnitsOf (r : RoundingInterval) (k : Int) : RoundingInterval :=
  let up := Nat.pow 10 (-k).toNat
  { r with
    value := r.value * up
    low := r.low * up
    high := r.high * up
    denominator := r.denominator * Nat.pow 10 k.toNat }

/-- Whether the whole number `n` lies in the interval. -/
def contains (r : RoundingInterval) (n : Nat) : Bool :=
  let n := n * r.denominator
  if r.closed then r.low ≤ n && n ≤ r.high else r.low < n && n < r.high

/-- The whole number in the interval that is nearest to the value, if there is one among
the value's two neighbours. -/
def nearest? (r : RoundingInterval) (tie : Tie) : Option Nat :=
  let below := r.value / r.denominator
  match r.contains below, r.contains (below + 1) with
  | false, false => none
  | true, false => some below
  | false, true => some (below + 1)
  | true, true =>
    match compare (2 * r.value) ((2 * below + 1) * r.denominator) with
    | .lt => some below
    | .gt => some (below + 1)
    | .eq =>
      match tie with
      | .away => some (below + 1)
      | .toEven => some (if below % 2 = 0 then below else below + 1)

/-- The least `k ≤ fuel` for which the value is at least `10 ^ (-k)`. -/
def leadingZeros (r : RoundingInterval) : Nat → Nat → Nat
  | 0, k => k
  | fuel + 1, k =>
    if r.denominator ≤ r.value * Nat.pow 10 k then k else leadingZeros r fuel (k + 1)

/-- The power of ten of the value's first digit. -/
def magnitude (r : RoundingInterval) : Int :=
  let whole := r.value / r.denominator
  if whole = 0 then -(leadingZeros r 400 1 : Nat)
  else ((Nat.toDigits 10 whole).length : Int) - 1

end RoundingInterval

/-- The same number without trailing zeros among its digits. -/
def dropZeros : Nat → Decimal → Decimal
  | 0, d => d
  | fuel + 1, d =>
    if d.digits ≠ 0 && d.digits % 10 = 0 then dropZeros fuel ⟨d.digits / 10, d.exponent + 1⟩
    else d

/-- The first grid with a hit, from the coarsest with the digits given on. -/
def searchGrids (r : RoundingInterval) (tie : Tie) (magnitude : Int) : Nat → Nat → Decimal
  | 0, count => ⟨r.value / r.denominator, magnitude - count⟩
  | fuel + 1, count =>
    let exponent := magnitude - count
    match (r.inUnitsOf exponent).nearest? tie with
    | some digits => dropZeros 20 ⟨digits, exponent⟩
    | none => searchGrids r tie magnitude fuel (count + 1)

/-- The shortest decimal that reads back to `mantissa * 2 ^ exponent`, for a positive
mantissa. -/
def shortestDecimal (tie : Tie) (mantissa : Nat) (exponent : Int) : Decimal :=
  let r := RoundingInterval.ofParts mantissa exponent
  searchGrids r tie r.magnitude 17 0

end ArrayEquations
