import ArrayEquations.Operation
import ArrayEquations.Shape.Broadcast

/-!
# ArrayEquations — result shapes

The shape of an operation's result where it follows from the operands' shapes. A
broadcast and a reshape state their result, which `Shape.checkBroadcast` and
`Shape.checkReshape` check instead.

## Main definitions

* `Operation.resultShape` — the shape of the result, or why there is none.
-/

namespace ArrayEquations

/-- Checks axis after axis that a list names axes below `rank`, each at most once; `seen`
holds the axes before. -/
def checkAxesFrom (operation : String) (rank : Nat) (seen : List Nat) :
    List Nat → Except ShapeError Unit
  | [] => .ok ()
  | a :: rest =>
    if rank ≤ a then .error (.axisOutOfRange operation a rank)
    else if seen.contains a then .error (.axisRepeated operation a)
    else checkAxesFrom operation rank (a :: seen) rest

/-- Whether a list names axes below `rank`, each at most once. -/
def checkAxes (operation : String) (rank : Nat) (axes : List Nat) : Except ShapeError Unit :=
  checkAxesFrom operation rank [] axes

/-- Whether paired axes have equal extents. -/
def checkExtents (lhs rhs : Shape) : List (Nat × Nat) → Except ShapeError Unit
  | [] => .ok ()
  | (l, r) :: rest =>
    if lhs.extent l = rhs.extent r then checkExtents lhs rhs rest
    else .error (.extentMismatch l r lhs rhs)

namespace ContractionAxes

/-- The shape of a contraction: batch axes, free axes on the left, free axes on the right. -/
def resultShape (axes : ContractionAxes) (lhs rhs : Shape) : Except ShapeError Shape := do
  if axes.lhsContract.length ≠ axes.rhsContract.length ||
      axes.lhsBatch.length ≠ axes.rhsBatch.length then
    throw .axisListsDiffer
  let lhsAxes := axes.lhsContract ++ axes.lhsBatch
  let rhsAxes := axes.rhsContract ++ axes.rhsBatch
  checkAxes "dot_general" lhs.rank lhsAxes
  checkAxes "dot_general" rhs.rank rhsAxes
  checkExtents lhs rhs (lhsAxes.zip rhsAxes)
  return axes.lhsBatch.map lhs.extent ++ (axes.lhsFree lhs.rank).map lhs.extent ++
    (axes.rhsFree rhs.rank).map rhs.extent

end ContractionAxes

/-- The shape of a sum over `axes`: the other axes in order. -/
def sumShape (axes : List Nat) (operand : Shape) : Except ShapeError Shape := do
  checkAxes "reduce_sum" operand.rank axes
  return (operand.axes.filter fun a => !axes.contains a).map operand.extent

/-- The shape of a transposition. -/
def transposeShape (permutation : List Nat) (operand : Shape) : Except ShapeError Shape := do
  if permutation.length ≠ operand.rank then
    throw (.permutationLength permutation operand.rank)
  checkAxes "transpose" operand.rank permutation
  return permutation.map operand.extent

namespace Operation

/-- Applies a rule for one operand. -/
def onOne (op : Operation) (rule : Shape → Except ShapeError Shape) :
    List Shape → Except ShapeError Shape
  | [a] => rule a
  | given => .error (.operandCount op.name 1 given.length)

/-- Applies a rule for two operands. -/
def onTwo (op : Operation) (rule : Shape → Shape → Except ShapeError Shape) :
    List Shape → Except ShapeError Shape
  | [a, b] => rule a b
  | given => .error (.operandCount op.name 2 given.length)

/-- The shape of an operation's result, where it follows from the operands. A foreign
operation is taken to keep the shape of its first operand. -/
def resultShape (op : Operation) (operands : List Shape) : Except ShapeError Shape :=
  match op with
  | .arith _ | .indicator _ | .accumulate => op.onTwo Shape.broadcast operands
  | .neg | .call _ | .cast _ => op.onOne .ok operands
  | .contract axes => op.onTwo axes.resultShape operands
  | .reduceSum axes => op.onOne (sumShape axes) operands
  | .transpose permutation => op.onOne (transposeShape permutation) operands
  | .broadcast _ | .reshape => .error (.explicitShapeNeeded op.name)
  | .foreign _ => .ok (operands.headD [])

end Operation

end ArrayEquations
