import ArrayEquations.Operation

/-!
# ArrayEquations — how operations are written

The rule by which an operation turns into a formula over its operands. Only foreign
operations have none.
-/

namespace ArrayEquations

/-- How an operation is written. -/
inductive Rule where
  /-- As its operand: the operation has no mathematical content. -/
  | elide
  /-- As its operand, provided that only axes of extent one come or go. -/
  | reshape
  /-- As an operator between its operands. -/
  | operator (op : Arith)
  | negate
  /-- As a call of a named function. -/
  | call (f : NamedFunction)
  | indicator (c : Comparison)
  /-- As a product under a summation over the contracted axes. -/
  | contract (axes : ContractionAxes)
  /-- As a summation over the axes. -/
  | reduce (axes : List Nat)
  /-- As its operand under the indices of the axes it came from. -/
  | broadcast (dims : List Nat)
  /-- As its operand under permuted indices. -/
  | transpose (permutation : List Nat)
  /-- As an ordered sum of contributions. -/
  | accumulate
  deriving DecidableEq, Repr

/-- The rule of an operation; none for a foreign one. -/
def Operation.rule? : Operation → Option Rule
  | .arith op => some (.operator op)
  | .neg => some .negate
  | .call f => some (.call f)
  | .indicator c => some (.indicator c)
  | .contract axes => some (.contract axes)
  | .reduceSum axes => some (.reduce axes)
  | .broadcast dims => some (.broadcast dims)
  | .transpose permutation => some (.transpose permutation)
  | .reshape => some .reshape
  | .cast _ => some .elide
  | .accumulate => some .accumulate
  | .foreign _ => none

end ArrayEquations
