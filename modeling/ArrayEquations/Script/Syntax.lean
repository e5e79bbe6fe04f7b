import ArrayEquations.Diagnostic
import ArrayEquations.Operation

/-!
# ArrayEquations — syntax of scripts

A script is a list of function definitions. The body of a definition names values and
ends in the values that the function returns. Every part knows its place in the source.

## Main definitions

* `Term` — what computes a value, with `Term.span` its place.
* `Statement`, `Parameter`, `Definition` — the parts of a function.
* `SourceFile` — a script as it is written.
-/

namespace ArrayEquations.Script

/-- A name with its place. -/
structure Identifier where
  name : String
  span : Span
  deriving DecidableEq, Repr

/-- The operators between two terms. -/
inductive BinaryOp where
  | arith (op : Arith)
  | matmul
  | compare (c : Comparison)
  deriving DecidableEq, Repr

/-- What computes a value. The place of a term in brackets is that of the term inside. -/
inductive Term where
  | number (span : Span) (x : Float)
  /-- A list of extents or axes between square brackets. -/
  | dims (span : Span) (ns : List Nat)
  | var (name : Identifier)
  | neg (span : Span) (operand : Term)
  | binary (span : Span) (op : BinaryOp) (lhs rhs : Term)
  | call (span : Span) (callee : Identifier) (arguments : List Term)
  /-- A value with the name that it gets in the equations, and what it depends on. -/
  | named (span : Span) (value : Term) (name : Identifier)
      (dependsOn : Option (List Identifier))

/-- The place of a term. -/
def Term.span : Term → Span
  | .var name => name.span
  | .number span _ | .dims span _ | .neg span _ | .binary span _ _ _ | .call span _ _
  | .named span _ _ _ => span

/-- A line of a function's body. -/
inductive Statement where
  /-- Makes a name stand for a value in the lines that follow. -/
  | bind (span : Span) (name : Identifier) (value : Term)
  /-- Ends the function with its values. -/
  | result (span : Span) (values : List Term)

/-- A parameter with the shape of its example; a parameter without one is a scalar. -/
structure Parameter where
  name : Identifier
  shape : Shape
  span : Span
  deriving DecidableEq, Repr

/-- A function as it is defined. -/
structure Definition where
  name : Identifier
  parameters : List Parameter
  body : List Statement
  span : Span

/-- A script as it is written. -/
structure SourceFile where
  definitions : List Definition
  span : Span

end ArrayEquations.Script
