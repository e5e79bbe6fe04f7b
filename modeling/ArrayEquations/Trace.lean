import ArrayEquations.Graph

/-!
# ArrayEquations — traces

A trace is a captured function: the graph of its computation, its inputs, the names
given to values, what is the derivative of what, and the outputs.

## Main definitions

* `Argument`, `Binding`, `DerivativeTag` — the annotations of a trace.
* `Trace` — a captured function.
* `Trace.tagOf?`, `Trace.lastTagOf?`, `Trace.argumentPosition?` — look-ups in it.
-/

namespace ArrayEquations

/-- An input of the function. -/
structure Argument where
  value : ValueId
  /-- The formal name, if there is one. -/
  name : Option String
  /-- Whether a differentiation added the input; such inputs are named after their primal. -/
  derivative : Bool
  deriving DecidableEq, Repr

/-- A name given to a value. -/
structure Binding where
  id : Nat
  name : String
  value : ValueId
  /-- The values it is said to depend on; none if nothing is said. -/
  dependsOn : Option (List ValueId)
  deriving DecidableEq, Repr

/-- The two kinds of derivative quantity. -/
inductive DerivativeKind where
  /-- A forward-mode quantity. -/
  | tangent
  /-- A reverse-mode quantity. -/
  | cotangent
  deriving DecidableEq, Repr

/-- The spelling of a kind of derivative. -/
def DerivativeKind.name : DerivativeKind → String
  | .tangent => "tangent"
  | .cotangent => "cotangent"

/-- Says that `value` is the tangent or cotangent of `primal`. -/
structure DerivativeTag where
  kind : DerivativeKind
  primal : ValueId
  value : ValueId
  deriving DecidableEq, Repr

/-- A captured function. -/
structure Trace where
  name : String
  graph : Graph
  /-- The inputs in call order. -/
  arguments : List Argument
  bindings : List Binding
  tags : List DerivativeTag
  outputs : List ValueId
  deriving DecidableEq

namespace Trace

/-- The first tag of a value: what it was made as. -/
def tagOf? (t : Trace) (v : ValueId) : Option DerivativeTag :=
  t.tags.find? (·.value == v)

/-- The last tag of a value: what it was used as in the end. -/
def lastTagOf? (t : Trace) (v : ValueId) : Option DerivativeTag :=
  t.tags.reverse.find? (·.value == v)

/-- The position of the first argument with a formal name. -/
def argumentPosition? (t : Trace) (name : String) : Option Nat :=
  t.arguments.findIdx? (·.name == some name)

/-- The shapes of the arguments in call order. -/
def argumentShapes (t : Trace) : List Shape := t.arguments.map fun a => t.graph.shape a.value

end Trace

end ArrayEquations
