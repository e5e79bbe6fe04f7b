import ArrayEquations.Recorder
import ArrayEquations.Script.Load

/-!
# ArrayEquations — capturing functions of scripts

A function is captured by recording its body on arguments of given shapes. A call of
another function of the script records that function's body in its place; the calls
that are open at a time are of distinct functions, so capturing ends. Other calls are
built in or name a primitive.

## Main definitions

* `CaptureError` — why a function is not captured.
* `Builtin` — the calls with arguments that are no values.
* `evaluate` — records a term.
* `Script.capture` — the trace of a function.
-/

namespace ArrayEquations.Script

/-! ## Errors -/

/-- The calls that are built in. -/
inductive Builtin where
  | call (f : NamedFunction)
  | cast
  | sum
  | transpose
  | reshape
  | broadcast
  deriving DecidableEq, Repr

namespace Builtin

/-- The spelling of a built-in call. -/
def name : Builtin → String
  | .call f => f.name
  | .cast => "cast"
  | .sum => "sum"
  | .transpose => "transpose"
  | .reshape => "reshape"
  | .broadcast => "broadcast"

/-- All built-in calls. -/
def all : List Builtin :=
  [ .call .relu, .call .exp, .call .log, .call .sin, .call .cos, .call .tanh, .call .sqrt,
    .cast, .sum, .transpose, .reshape, .broadcast ]

/-- The built-in call of a name. -/
def ofName? (name : String) : Option Builtin := all.find? (·.name == name)

/-- What a built-in call takes. -/
def usage : Builtin → String
  | .call _ | .cast => "1 argument"
  | .sum => "a value and optional axes"
  | .transpose => "a value and an optional permutation"
  | .reshape | .broadcast => "a value and a shape"

end Builtin

/-- Why a term has no value. -/
inductive TermError where
  | undefinedName (name : String)
  /-- A list of extents where a value has to stand. -/
  | misplacedDims
  | expectedAxis
  | expectedDims
  /-- A built-in call with other arguments than it takes. -/
  | usage (b : Builtin)
  /-- A call of a function from within itself. -/
  | recursiveCall (name : String)
  | argumentCount (name : String) (expected given : Nat)
  /-- A call of a function that has not one value. -/
  | valueCount (name : String) (count : Nat)
  /-- A function whose body ends without values. -/
  | noResult (name : String)
  deriving DecidableEq, Repr

/-- The text of a term error. -/
def TermError.message : TermError → String
  | .undefinedName name => s!"undefined name `{name}`"
  | .misplacedDims =>
    "a dimension list is only valid as a shape or permutation argument"
  | .expectedAxis => "expected an axis number"
  | .expectedDims => "expected a dimension list like `[2, 3]`"
  | .usage b => s!"`{b.name}` takes {b.usage}"
  | .recursiveCall name => s!"recursive call to `{name}`"
  | .argumentCount name expected given =>
    s!"`{name}` takes {expected} argument(s), got {given}"
  | .valueCount name count =>
    s!"`{name}` returns {count} values; only single-valued functions can be called"
  | .noResult name => s!"function `{name}` has no return statement"

/-- Why a function is not captured. -/
inductive CaptureError where
  | recording (e : RecordingError)
  /-- Another number of example shapes than the function has parameters. -/
  | exampleCount (function : String) (expected given : Nat)
  | term (span : Span) (e : TermError)
  deriving DecidableEq, Repr

/-- The text of a capture error. -/
def CaptureError.message : CaptureError → String
  | .recording e => e.message
  | .exampleCount function expected given =>
    s!"function `{function}` takes {expected} argument(s) but was traced with {given}"
  | .term span e => s!"{e.message} (at {span.text})"

/-! ## Evaluation -/

/-- Recording that may find a term without a value. -/
abbrev Evaluation := ExceptT CaptureError Recording

/-- Stops at a term. -/
def failAt {α : Type} (span : Span) (e : TermError) : Evaluation α := throw (.term span e)

/-- The values that names stand for, latest name first. -/
abbrev Scope := List (String × ValueId)

/-- The value that a name stands for. -/
def Scope.find (scope : Scope) (name : Identifier) : Evaluation ValueId :=
  match scope.lookup name.name with
  | some v => return v
  | none => failAt name.span (.undefinedName name.name)

/-- The axis that a term is: a whole number; one beyond 64 bits counts as the greatest. -/
def axisOf (t : Term) : Evaluation Nat :=
  match t with
  | .number span x =>
    match naturalValue? x with
    | some n => return min n (wordBound - 1)
    | none => failAt span .expectedAxis
  | t => failAt t.span .expectedAxis

/-- The list of extents or axes that a term is. -/
def dimsOf (t : Term) : Evaluation (List Nat) :=
  match t with
  | .dims _ ns => return ns
  | t => failAt t.span .expectedDims

/-- Records an operator. -/
def recordBinary (op : BinaryOp) (a b : ValueId) : Recording ValueId :=
  match op with
  | .arith op => Recording.arith op a b
  | .matmul => Recording.matmul a b
  | .compare c => Recording.compare c a b

/-- The surroundings of a body. -/
structure Context where
  definitions : List Definition
  /-- The functions whose calls are open, innermost first. -/
  stack : List String
  /-- Records the body of a function on its arguments. -/
  inline : Definition → List ValueId → Evaluation (List ValueId)

/-- Whether a function may be called with so many arguments: no call of it is open, and it has
as many parameters. -/
def Context.checkCall (c : Context) (d : Definition) (span : Span) (given : Nat) :
    Evaluation Unit := do
  let name := d.name.name
  if c.stack.contains name then failAt span (.recursiveCall name)
  if given ≠ d.parameters.length then
    failAt span (.argumentCount name d.parameters.length given)

/-- Records a call of a function of the script on its arguments. -/
def Context.callFunction (c : Context) (d : Definition) (span : Span)
    (arguments : List ValueId) : Evaluation ValueId := do
  match ← c.inline d arguments with
  | [v] => return v
  | vs => failAt span (.valueCount d.name.name vs.length)

/-- Records a built-in call on the value of its first argument. The other arguments are read
as they stand. -/
def recordBuiltin (b : Builtin) (v : ValueId) (others : List Term) : Evaluation ValueId :=
  match b, others with
  | .call f, _ => Recording.call f v
  | .cast, _ => Recording.cast v Recording.defaultDtype
  | .sum, [] => Recording.sumAll v
  | .sum, axes => do Recording.sum v (← axes.mapM axisOf)
  | .transpose, [permutation] => do Recording.transpose v (← dimsOf permutation)
  | .transpose, _ => Recording.transposeAll v
  | .reshape, target :: _ => do Recording.reshape v (← dimsOf target)
  | .broadcast, target :: _ => do Recording.broadcastTo v (← dimsOf target)
  | .reshape, [] | .broadcast, [] => return v

/-- Whether a built-in call takes so many arguments. -/
def Builtin.takes (b : Builtin) (count : Nat) : Bool :=
  match b with
  | .call _ | .cast => count = 1
  | .sum => 1 ≤ count
  | .transpose => count = 1 || count = 2
  | .reshape | .broadcast => count = 2

mutual

/-- Records a term. -/
def evaluate (c : Context) (scope : Scope) : Term → Evaluation ValueId
  | .number _ x => Recording.literal x
  | .dims span _ => failAt span .misplacedDims
  | .var name => scope.find name
  | .neg _ operand => do
    let a ← evaluate c scope operand
    Recording.neg a
  | .binary _ op lhs rhs => do
    let a ← evaluate c scope lhs
    let b ← evaluate c scope rhs
    recordBinary op a b
  | .named _ value name dependsOn => do
    let v ← evaluate c scope value
    let dependencies ← dependsOn.mapM fun names => names.mapM scope.find
    Recording.named v name.name dependencies
  | .call _ callee arguments =>
    match c.definitions.find? (·.name.name == callee.name) with
    | some d => do
      c.checkCall d callee.span arguments.length
      let values ← evaluateEach c scope arguments
      c.callFunction d callee.span values
    | none =>
      match Builtin.ofName? callee.name with
      | some b =>
        if b.takes arguments.length then
          match arguments with
          | [] => failAt callee.span (.usage b)
          | first :: others => do
            let v ← evaluate c scope first
            recordBuiltin b v others
        else failAt callee.span (.usage b)
      | none => do
        let values ← evaluateEach c scope arguments
        Recording.primitive callee.name values

/-- Records terms in order. -/
def evaluateEach (c : Context) (scope : Scope) : List Term → Evaluation (List ValueId)
  | [] => return []
  | t :: ts => do
    let v ← evaluate c scope t
    let vs ← evaluateEach c scope ts
    return v :: vs

end

/-- Records the lines of a body; none if it ends without values. -/
def runStatements (c : Context) (scope : Scope) :
    List Statement → Evaluation (Option (List ValueId))
  | [] => return none
  | .bind _ name value :: rest => do
    let v ← evaluate c scope value
    runStatements c ((name.name, v) :: scope) rest
  | .result _ values :: _ => some <$> evaluateEach c scope values

/-- Records the body of a function on its arguments, where at most `fuel` functions are not
open. -/
def runBody (definitions : List Definition) :
    Nat → List String → Definition → List ValueId → Evaluation (List ValueId)
  | 0, _, d, _ => failAt d.span (.recursiveCall d.name.name)
  | fuel + 1, stack, d, arguments => do
    let stack := d.name.name :: stack
    let c : Context := ⟨definitions, stack, runBody definitions fuel stack⟩
    match ← runStatements c (d.parameterNames.zip arguments) d.body with
    | some values => return values
    | none => failAt d.span (.noResult d.name.name)

/-- Records a function of the script on arguments of the shapes given. -/
def record (s : Script) (d : Definition) (shapes : List Shape) :
    Evaluation (List ValueId) := do
  let arguments ← (d.parameterNames.zip shapes).mapM fun (name, shape) =>
    Recording.argument shape (some name)
  runBody s.definitions s.definitions.length [] d arguments

/-- The trace of a function of the script on arguments of the shapes given. -/
def capture (s : Script) (d : Definition) (shapes : List Shape) : Except CaptureError Trace := do
  if shapes.length ≠ d.parameters.length then
    throw (.exampleCount d.name.name d.parameters.length shapes.length)
  let (outputs, r) := (s.record d shapes).run.run Recorder.empty
  (r.finish d.name.name (← outputs)).mapError .recording

end ArrayEquations.Script
