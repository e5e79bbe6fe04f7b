import ArrayEquations.Shape.Error

/-!
# ArrayEquations — broadcasting and reshaping

Two shapes broadcast by aligning their last axes: an axis that one of them lacks
counts as an extent of one, and an extent of one stretches to any other.

## Main definitions

* `Shape.broadcast` — the common shape of two operands.
* `Shape.checkBroadcast` — whether an operand stretches along given target axes.
* `Shape.checkReshape` — whether two shapes hold the same number of entries.
* `trailingDims` — the target axes of an operand aligned at the end.
-/

namespace ArrayEquations

/-- The common extent of two aligned axes. -/
def commonExtent? (x y : Nat) : Option Nat :=
  if x = y then some x else if x = 1 then some y else if y = 1 then some x else none

/-- The common shape of two shapes given last axis first. -/
def broadcastReversed? : List Nat → List Nat → Option (List Nat)
  | [], ys => some ys
  | xs, [] => some xs
  | x :: xs, y :: ys => do
    let d ← commonExtent? x y
    let ds ← broadcastReversed? xs ys
    return d :: ds

namespace Shape

/-- The common shape of two operands, their last axes aligned. -/
def broadcast (a b : Shape) : Except ShapeError Shape :=
  match broadcastReversed? a.reverse b.reverse with
  | some s => .ok s.reverse
  | none => .error (.incompatible a b)

/-- Checks axis after axis that `dims` increases strictly within the target and that each
extent is one or its target's; `previous` is the position before. -/
def checkBroadcastFrom (operand target : Shape) (dims : List Nat) (previous : Option Nat) :
    List (Nat × Nat) → Except ShapeError Unit
  | [] => .ok ()
  | (extent, d) :: rest =>
    if target.rank ≤ d || previous.any (d ≤ ·) then .error (.broadcastAxes dims target)
    else if extent ≠ 1 && extent ≠ target.extent d then .error (.notBroadcastable operand target)
    else checkBroadcastFrom operand target dims (some d) rest

/-- Whether the operand stretches to the target when its axis `k` becomes axis `dims[k]`. -/
def checkBroadcast (operand : Shape) (dims : List Nat) (target : Shape) :
    Except ShapeError Unit :=
  if dims.length ≠ operand.rank then .error (.broadcastAxisCount dims.length operand.rank)
  else checkBroadcastFrom operand target dims none (operand.zip dims)

/-- Whether the operand has as many entries as the target. -/
def checkReshape (operand target : Shape) : Except ShapeError Unit :=
  if operand.size = target.size then .ok () else .error (.notReshapable operand target)

end Shape

/-- The axes of a result of rank `outRank` that an operand of rank `rank` takes when their
last axes are aligned. -/
def trailingDims (rank outRank : Nat) : List Nat :=
  (List.range rank).map (outRank - rank + ·)

end ArrayEquations
