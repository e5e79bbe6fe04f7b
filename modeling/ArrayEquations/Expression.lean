import ArrayEquations.Decimal
import ArrayEquations.Index
import ArrayEquations.Operation

/-!
# ArrayEquations — formulas and equations

Formulas over indexed symbols. Every symbol carries the indices of the axes of its
array that are not of extent one, and a summation carries the indices it binds.

## Main definitions

* `Symbol` — a name with the names it depends on.
* `Reference` — a symbol with its indices.
* `Expr` — a formula; `Expr.text` is its prefix form and `Expr.termCount` the number
  of its summands.
* `Equation`, `Program` — a formula with a left-hand side, and a list of equations.
-/

namespace ArrayEquations

/-! ## Symbols -/

/-- A name, with the names in brackets behind it. -/
structure Symbol where
  name : String
  dependencies : List String
  deriving DecidableEq, Repr

namespace Symbol

/-- A name with nothing behind it. -/
def plain (name : String) : Symbol := ⟨name, []⟩

/-- The same symbol with something before its name. -/
def prefixed (s : Symbol) (before : String) : Symbol := { s with name := before ++ s.name }

/-- The names behind a symbol, between brackets. -/
def dependenciesText (s : Symbol) : String :=
  if s.dependencies.isEmpty then ""
  else "(" ++ String.intercalate ", " s.dependencies ++ ")"

end Symbol

/-- A symbol with its indices. -/
structure Reference where
  symbol : Symbol
  indices : List Index
  deriving DecidableEq, Repr

/-- A symbol with its indices, in the prefix form of formulas: `z[ij](x, y)`. -/
def Reference.text (r : Reference) : String :=
  let indices := if r.indices.isEmpty then "" else "[" ++ Index.rowText r.indices ++ "]"
  r.symbol.name ++ indices ++ r.symbol.dependenciesText

/-! ## Formulas -/

/-- A formula. -/
inductive Expr where
  | var (r : Reference)
  | literal (x : Float)
  | binary (op : Arith) (lhs rhs : Expr)
  | neg (e : Expr)
  | call (f : NamedFunction) (argument : Expr)
  /-- One where the comparison holds, zero elsewhere. -/
  | indicator (c : Comparison) (lhs rhs : Expr)
  /-- The sum over all values of the indices. -/
  | sum (indices : List Index) (body : Expr)
  /-- The contributions to a cotangent, in order. -/
  | terms (ts : List Expr)

namespace Expr

mutual

/-- A formula in prefix form: `(mul x (neg y))`. -/
def text : Expr → String
  | .var r => r.text
  | .literal x => plainText x
  | .binary op lhs rhs => s!"({op.name} {lhs.text} {rhs.text})"
  | .neg e => s!"(neg {e.text})"
  | .call f argument => s!"({f.name} {argument.text})"
  | .indicator c lhs rhs => s!"(indicator {c.name} {lhs.text} {rhs.text})"
  | .sum indices body => s!"(sum [{Index.rowText indices}] {body.text})"
  | .terms ts => "(terms" ++ textEach ts ++ ")"

/-- Formulas in prefix form, each after a blank. -/
def textEach : List Expr → String
  | [] => ""
  | t :: ts => " " ++ t.text ++ textEach ts

end

/-- The number of summands of a formula, as far as its left side goes. -/
def termCount : Expr → Nat
  | .terms ts => ts.length
  | .binary .add lhs _ | .binary .sub lhs _ => lhs.termCount + 1
  | _ => 1

end Expr

/-! ## Equations -/

/-- Why an equation is there. -/
inductive EquationKind where
  /-- It defines a named value. -/
  | binding
  /-- It gives the tangent or cotangent of a named value. -/
  | derivative
  /-- It gives an output of the function. -/
  | output
  deriving DecidableEq, Repr

/-- The spelling of an equation's kind. -/
def EquationKind.name : EquationKind → String
  | .binding => "binding"
  | .derivative => "derivative"
  | .output => "output"

/-- A symbol with its indices, and the formula it is equal to. -/
structure Equation where
  kind : EquationKind
  lhs : Reference
  rhs : Expr

/-- Equations in order. -/
abbrev Program := List Equation

namespace Program

/-- The equations of outputs. -/
def outputs (p : Program) : List Equation := p.filter (·.kind == .output)

/-- The first equation whose left-hand side has a name. -/
def equation? (p : Program) (name : String) : Option Equation :=
  p.find? (·.lhs.symbol.name == name)

/-- The equations in prefix form, a line for each. -/
def text (p : Program) : String :=
  String.join (p.map fun e => s!"{e.lhs.text} = {e.rhs.text}\n")

end Program

end ArrayEquations
