import ArrayEquations.Shape

/-!
# ArrayEquations — why a shape is refused

The causes for which the shape rules reject an operation, and the text of each.
-/

namespace ArrayEquations

/-- Why an operation has no result shape. -/
inductive ShapeError where
  /-- Two shapes that do not agree after trailing alignment. -/
  | incompatible (a b : Shape)
  /-- A target with which an operand's extents do not agree. -/
  | notBroadcastable (operand target : Shape)
  /-- A broadcast with the wrong number of axis positions. -/
  | broadcastAxisCount (given rank : Nat)
  /-- A broadcast whose axis positions are not increasing positions of the target. -/
  | broadcastAxes (dims : List Nat) (target : Shape)
  /-- A reshape that changes the number of entries. -/
  | notReshapable (operand target : Shape)
  /-- The wrong number of operands. -/
  | operandCount (operation : String) (expected given : Nat)
  /-- An axis that the operand does not have. -/
  | axisOutOfRange (operation : String) (axis rank : Nat)
  /-- An axis named twice. -/
  | axisRepeated (operation : String) (axis : Nat)
  /-- A permutation of the wrong length. -/
  | permutationLength (permutation : List Nat) (rank : Nat)
  /-- Paired axis lists of different lengths. -/
  | axisListsDiffer
  /-- Paired axes of different extents. -/
  | extentMismatch (lhsAxis rhsAxis : Nat) (lhs rhs : Shape)
  /-- An operation whose result shape does not follow from its operands. -/
  | explicitShapeNeeded (operation : String)
  deriving DecidableEq, Repr

/-- The text of a shape error. -/
def ShapeError.message : ShapeError → String
  | .incompatible a b => s!"cannot broadcast shapes {a.text} and {b.text}"
  | .notBroadcastable a b => s!"cannot broadcast {a.text} to {b.text}"
  | .broadcastAxisCount given rank =>
    s!"broadcast: {given} dims given for operand of rank {rank}"
  | .broadcastAxes dims target =>
    s!"broadcast: invalid dims {naturalsText dims} for target {target.text}"
  | .notReshapable a b => s!"cannot reshape {a.text} to {b.text}"
  | .operandCount op expected given =>
    s!"`{op}` takes {expected} operand(s), got {given}"
  | .axisOutOfRange op axis rank => s!"{op}: axis {axis} out of range for rank {rank}"
  | .axisRepeated op axis => s!"{op}: axis {axis} repeated"
  | .permutationLength permutation rank =>
    s!"transpose permutation {naturalsText permutation} does not match rank {rank}"
  | .axisListsDiffer => "dot_general: lhs and rhs axis lists differ in length"
  | .extentMismatch l r lhs rhs =>
    s!"dot_general: lhs axis {l} (extent {lhs.extent l}) does not match rhs axis {r} " ++
      s!"(extent {rhs.extent r}) for shapes {lhs.text} and {rhs.text}"
  | .explicitShapeNeeded op => s!"`{op}` needs an explicit output shape"

end ArrayEquations
