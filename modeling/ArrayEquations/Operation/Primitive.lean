import ArrayEquations.Operation

/-!
# ArrayEquations — primitives by name

The names under which operations are recorded and imported. Several names may stand
for one family; a name outside the table belongs to a foreign operation.

## Main definitions

* `Family` — what a name stands for, before its parameters are known.
* `Primitive` — a name with its number of operands and its family.
* `primitives` — the table, and `primitive?`, the look-up in it.
-/

namespace ArrayEquations

/-- The family of operations that a primitive's name stands for. -/
inductive Family where
  | arith (op : Arith)
  | neg
  | call (f : NamedFunction)
  | indicator (c : Comparison)
  /-- A contraction with explicit axes. -/
  | contract
  /-- A contraction whose axes follow from the operands' ranks. -/
  | matmul
  | reduceSum
  | broadcast
  | transpose
  | reshape
  | cast
  | accumulate
  deriving DecidableEq, Repr

/-- A name of the table. -/
structure Primitive where
  name : String
  /-- The number of operands. -/
  arity : Nat
  family : Family
  deriving DecidableEq, Repr

/-- The primitives that have a rule. -/
def primitives : List Primitive :=
  [ ⟨"add", 2, .arith .add⟩, ⟨"sub", 2, .arith .sub⟩, ⟨"mul", 2, .arith .mul⟩,
    ⟨"div", 2, .arith .div⟩, ⟨"pow", 2, .arith .pow⟩, ⟨"neg", 1, .neg⟩,
    ⟨"relu", 1, .call .relu⟩, ⟨"exp", 1, .call .exp⟩, ⟨"log", 1, .call .log⟩,
    ⟨"sin", 1, .call .sin⟩, ⟨"cos", 1, .call .cos⟩, ⟨"tanh", 1, .call .tanh⟩,
    ⟨"sqrt", 1, .call .sqrt⟩, ⟨"lt", 2, .indicator .lt⟩, ⟨"le", 2, .indicator .le⟩,
    ⟨"gt", 2, .indicator .gt⟩, ⟨"ge", 2, .indicator .ge⟩, ⟨"eq", 2, .indicator .eq⟩,
    ⟨"ne", 2, .indicator .ne⟩, ⟨"dot_general", 2, .contract⟩, ⟨"matmul", 2, .matmul⟩,
    ⟨"dot", 2, .matmul⟩, ⟨"reduce_sum", 1, .reduceSum⟩, ⟨"sum", 1, .reduceSum⟩,
    ⟨"broadcast_in_dim", 1, .broadcast⟩, ⟨"broadcast", 1, .broadcast⟩,
    ⟨"transpose", 1, .transpose⟩, ⟨"reshape", 1, .reshape⟩, ⟨"squeeze", 1, .reshape⟩,
    ⟨"expand_dims", 1, .reshape⟩, ⟨"convert_element_type", 1, .cast⟩, ⟨"cast", 1, .cast⟩,
    ⟨"add_any", 2, .accumulate⟩ ]

/-- The primitive of a name. -/
def primitive? (name : String) : Option Primitive :=
  primitives.find? (·.name == name)

end ArrayEquations
