import ArrayEquations.Shape

/-!
# ArrayEquations — operations

The kinds of operation that a graph can hold, with their axis parameters.

* The result of a contraction has the batch axes first, then the free axes of the
  left operand, then those of the right one.
* A broadcast takes operand axis `k` to result axis `dims[k]`.
* A transposition takes operand axis `permutation[k]` to result axis `k`.

## Main definitions

* `Arith`, `NamedFunction`, `Comparison` — the elementwise families.
* `ContractionAxes` — which axes of two operands are paired, and how.
* `Operation` — all kinds, and `Operation.name`, the spelling of each.
-/

namespace ArrayEquations

/-- The elementwise arithmetic on two operands. -/
inductive Arith where
  | add | sub | mul | div | pow
  deriving DecidableEq, Repr

/-- The spelling of an arithmetic operation. -/
def Arith.name : Arith → String
  | .add => "add"
  | .sub => "sub"
  | .mul => "mul"
  | .div => "div"
  | .pow => "pow"

/-- The elementwise functions of one operand that are written as calls. -/
inductive NamedFunction where
  | relu | exp | log | sin | cos | tanh | sqrt
  deriving DecidableEq, Repr

/-- The spelling of a named function. -/
def NamedFunction.name : NamedFunction → String
  | .relu => "relu"
  | .exp => "exp"
  | .log => "log"
  | .sin => "sin"
  | .cos => "cos"
  | .tanh => "tanh"
  | .sqrt => "sqrt"

/-- The comparisons whose indicator is one where they hold and zero elsewhere. -/
inductive Comparison where
  | lt | le | gt | ge | eq | ne
  deriving DecidableEq, Repr

/-- The spelling of a comparison. -/
def Comparison.name : Comparison → String
  | .lt => "lt"
  | .le => "le"
  | .gt => "gt"
  | .ge => "ge"
  | .eq => "eq"
  | .ne => "ne"

/-- The axes of a contraction, paired by position: contracted axes are summed over, batch
axes are kept once. -/
structure ContractionAxes where
  lhsContract : List Nat
  rhsContract : List Nat
  lhsBatch : List Nat
  rhsBatch : List Nat
  deriving DecidableEq, Repr

namespace ContractionAxes

/-- The axes of a matrix product: the last axis on the left with the second to last on the
right, or with the only one of a vector. -/
def matmul (lhsRank rhsRank : Nat) : ContractionAxes where
  lhsContract := [lhsRank - 1]
  rhsContract := [rhsRank - 2]
  lhsBatch := []
  rhsBatch := []

/-- The axes of the left operand that are neither contracted nor batched. -/
def lhsFree (axes : ContractionAxes) (rank : Nat) : List Nat :=
  freeAxes rank axes.lhsContract axes.lhsBatch

/-- The axes of the right operand that are neither contracted nor batched. -/
def rhsFree (axes : ContractionAxes) (rank : Nat) : List Nat :=
  freeAxes rank axes.rhsContract axes.rhsBatch

end ContractionAxes

/-- The kinds of operation. -/
inductive Operation where
  /-- Elementwise arithmetic. -/
  | arith (op : Arith)
  /-- Elementwise negation. -/
  | neg
  /-- An elementwise named function. -/
  | call (f : NamedFunction)
  /-- The indicator of an elementwise comparison. -/
  | indicator (c : Comparison)
  /-- A sum of products over paired axes. -/
  | contract (axes : ContractionAxes)
  /-- A sum over axes, which it removes. -/
  | reduceSum (axes : List Nat)
  /-- A stretch of the operand over new axes and over extents of one. -/
  | broadcast (dims : List Nat)
  /-- A reordering of the axes. -/
  | transpose (permutation : List Nat)
  /-- The same entries in row-major order under another shape. -/
  | reshape
  /-- A change of element type. -/
  | cast (dtype : String)
  /-- The sum of two contributions to one cotangent. -/
  | accumulate
  /-- An operation for which the library has no rule, known by its name only. -/
  | foreign (name : String)
  deriving DecidableEq, Repr

/-- The spelling of an operation in graphs and documents. -/
def Operation.name : Operation → String
  | .arith op => op.name
  | .neg => "neg"
  | .call f => f.name
  | .indicator c => c.name
  | .contract _ => "dot_general"
  | .reduceSum _ => "reduce_sum"
  | .broadcast _ => "broadcast_in_dim"
  | .transpose _ => "transpose"
  | .reshape => "reshape"
  | .cast _ => "convert_element_type"
  | .accumulate => "add_any"
  | .foreign name => name

end ArrayEquations
