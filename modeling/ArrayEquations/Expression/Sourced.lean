import ArrayEquations.Expression
import ArrayEquations.Graph

/-!
# ArrayEquations — formulas with their sources

While a formula is built it is known which value each symbol stands for and which
operation opened each summation. A formula forgets both.

## Main definitions

* `SourcedExpr` — a formula that remembers them.
* `SourcedExpr.expr` — the formula itself.
-/

namespace ArrayEquations

/-- A formula that remembers the values it was built from. -/
inductive SourcedExpr where
  /-- The symbol of the value `source`. -/
  | var (source : ValueId) (r : Reference)
  | literal (x : Float)
  | binary (op : Arith) (lhs rhs : SourcedExpr)
  | neg (e : SourcedExpr)
  | call (f : NamedFunction) (argument : SourcedExpr)
  | indicator (c : Comparison) (lhs rhs : SourcedExpr)
  /-- The summation that the operation of `source` opened. -/
  | sum (source : ValueId) (indices : List Index) (body : SourcedExpr)
  | terms (ts : List SourcedExpr)

namespace SourcedExpr

mutual

/-- The formula without its sources. -/
def expr : SourcedExpr → Expr
  | .var _ r => .var r
  | .literal x => .literal x
  | .binary op lhs rhs => .binary op lhs.expr rhs.expr
  | .neg e => .neg e.expr
  | .call f argument => .call f argument.expr
  | .indicator c lhs rhs => .indicator c lhs.expr rhs.expr
  | .sum _ indices body => .sum indices body.expr
  | .terms ts => .terms (exprEach ts)

/-- Formulas without their sources. -/
def exprEach : List SourcedExpr → List Expr
  | [] => []
  | t :: ts => t.expr :: exprEach ts

end

end SourcedExpr

end ArrayEquations
