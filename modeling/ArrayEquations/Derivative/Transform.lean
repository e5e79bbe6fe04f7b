import ArrayEquations.Derivative.Forward
import ArrayEquations.Derivative.Reverse
import ArrayEquations.Recorder.Function

/-!
# ArrayEquations — derivatives of a trace

The three derivatives of a trace: tangents, cotangents from seeds that are inputs, and
the gradient of a single number. A function is differentiated by differentiating its
trace.

## Main definitions

* `Mode` — the derivatives.
* `Trace.differentiate` — a derivative of a trace.
* `Derived` — a derivative of a function.
-/

namespace ArrayEquations

/-- The derivatives of a trace. -/
inductive Mode where
  /-- The tangents of the outputs. -/
  | jvp
  /-- The cotangents of the arguments, with a seed for each output. -/
  | vjp
  /-- The cotangents of the arguments of a function with one number as its output. -/
  | grad
  deriving DecidableEq, Repr

namespace Trace

/-- Goes on recording where the trace ended, and closes the recording under its name. -/
def extend (t : Trace) (action : Differentiating (List ValueId)) :
    Except DerivativeError Trace := do
  let r ← (Recorder.resume t).mapError .recording
  let (outputs, r) := action.run.run r
  (r.finish t.name (← outputs)).mapError .recording

/-- Whether the trace has one output with all extents one. -/
def hasScalarOutput (t : Trace) : Bool :=
  match t.outputs with
  | [o] => (t.graph.shape o).all (· == 1)
  | _ => false

/-- The derivative of a trace with respect to the arguments at the positions given, or to all
of them if no position is given. -/
def differentiate (t : Trace) (mode : Mode) (positions : List Nat) :
    Except DerivativeError Trace := do
  let arguments ← selectArguments t positions
  if mode = .grad && !t.hasScalarOutput then throw (.notScalar t.name)
  match mode with
  | .jvp => t.extend (recordForward t.graph arguments t.outputs)
  | .vjp | .grad =>
    let bound := t.bindings.map (·.value)
    t.extend (recordReverse t.graph bound arguments t.outputs (mode == .grad))

end Trace

/-! ## Functions -/

/-- A derivative of a function with respect to the arguments at the positions given. -/
structure Derived where
  function : TracedFunction
  mode : Mode
  positions : List Nat

namespace TracedFunction

/-- The tangents of a function. -/
def jvp (f : TracedFunction) (positions : List Nat) : Derived := ⟨f, .jvp, positions⟩

/-- The cotangents of the arguments of a function, with a seed for each output. -/
def vjp (f : TracedFunction) (positions : List Nat) : Derived := ⟨f, .vjp, positions⟩

/-- The gradient of a function with one number as its output. -/
def grad (f : TracedFunction) (positions : List Nat) : Derived := ⟨f, .grad, positions⟩

end TracedFunction

namespace Derived

/-- The name of the function that is differentiated. -/
def name (d : Derived) : String := d.function.name

/-- The trace of the derivative on arguments of the shapes given, which are those of the function
itself. -/
def capture (d : Derived) (shapes : List Shape) : Except DerivativeError Trace := do
  let t ← (d.function.capture shapes).mapError .recording
  t.differentiate d.mode d.positions

end Derived

end ArrayEquations
