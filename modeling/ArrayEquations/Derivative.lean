import ArrayEquations.Recorder

/-!
# ArrayEquations — differentiating a trace

A differentiation goes on recording where the trace ended and tags every derivative
quantity with its primal. This module holds what the two directions share.

## Main definitions

* `DerivativeError` — why a trace has no derivative.
* `Differentiating` — recording that may find an operation without a rule.
* `selectArguments` — the arguments with respect to which a trace is differentiated.
* `Derivatives` — the derivative quantity of each primal that has one.
* `powerSlope` — the derivative of a power with respect to its base.
-/

namespace ArrayEquations

/-- Why a trace has no derivative. -/
inductive DerivativeError where
  | recording (e : RecordingError)
  /-- A foreign operation on the way. -/
  | noRule (primitive : String)
  /-- A position at which the function has no argument. -/
  | noArgument (function : String) (position count : Nat)
  /-- A gradient of something else than one number. -/
  | notScalar (function : String)
  deriving DecidableEq, Repr

/-- The text of a derivative error. -/
def DerivativeError.message : DerivativeError → String
  | .recording e => e.message
  | .noRule name => s!"no differentiation rule for primitive `{name}`"
  | .noArgument function position count =>
    s!"cannot differentiate `{function}` with respect to argument {position}: " ++
      s!"it takes {count} argument(s)"
  | .notScalar function => s!"grad of `{function}` requires a single scalar output"

/-- Recording that may find an operation without a rule. -/
abbrev Differentiating := ExceptT DerivativeError Recording

/-- The arguments at the positions given, each once; without positions all arguments. -/
def selectArguments (t : Trace) (positions : List Nat) :
    Except DerivativeError (List ValueId) := do
  if positions.isEmpty then return t.arguments.map (·.value)
  let values ← positions.mapM fun p =>
    match t.arguments[p]? with
    | some a => pure a.value
    | none => throw (.noArgument t.name p t.arguments.length)
  return values.eraseDups

/-- The derivative quantity of each primal that has one. -/
abbrev Derivatives := ValueId → Option ValueId

namespace Derivatives

/-- No primal has a derivative quantity. -/
def none : Derivatives := fun _ => .none

/-- The same quantities, except for one primal. -/
def set (d : Derivatives) (primal value : ValueId) : Derivatives := fun v =>
  if v = primal then some value else d v

end Derivatives

namespace Recording

/-- Applies an action to a derivative quantity if there is one. -/
def through (d : Option ValueId) (f : ValueId → Recording ValueId) :
    Recording (Option ValueId) :=
  match d with
  | some v => some <$> f v
  | none => pure none

/-- Arithmetic with a constant on the right. -/
def arithRight (op : Arith) (a : ValueId) (x : Float) : Recording ValueId := do
  let c ← literal x
  arith op a c

/-- Arithmetic with a constant on the left. -/
def arithLeft (op : Arith) (x : Float) (b : ValueId) : Recording ValueId := do
  let c ← literal x
  arith op c b

/-- The derivative of `a ^ b` with respect to `a`: `c * a ^ (c - 1)` for a constant exponent `c`,
where `a ^ 1` is `a`, and `b * a ^ (b - 1)` for any other. -/
def powerSlope (a b : ValueId) : Recording ValueId := do
  match ← literalOf? b with
  | some c =>
    if c - 1 == 1 then arithLeft .mul c a
    else
      let power ← arithRight .pow a (c - 1)
      arithLeft .mul c power
  | none =>
    let exponent ← arithRight .sub b 1
    let power ← arith .pow a exponent
    arith .mul b power

/-- The indicator of where a value is positive: the derivative of its rectifier. -/
def positive (a : ValueId) : Recording ValueId := do
  let origin ← literal 0
  compare .gt a origin

end Recording

end ArrayEquations
