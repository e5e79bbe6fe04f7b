import ArrayEquations.Operation.Primitive
import ArrayEquations.Operation.ResultShape
import ArrayEquations.Trace.Binder

/-!
# ArrayEquations — recording a computation

A recorder collects the operations performed on the values of a computation into a
graph. No array is ever computed; only shapes are.

An operation that has no result does not stop the recording. The first such failure is
kept, a placeholder takes the place of the result, and `Recorder.finish` reports the
failure in the end.

## Main definitions

* `RecordingError` — why a recording fails.
* `Recorder` — the state of a recording, and `Recording`, an action on it.
* `push`, `elementwise`, `matmul`, … — the operations on values.
* `Recorder.resume`, `Recorder.finish` — from a trace and to a trace.
-/

namespace ArrayEquations

/-- Why a recording fails. -/
inductive RecordingError where
  | shape (e : ShapeError)
  /-- Operands of an elementwise operation that do not broadcast. -/
  | elementwise (operation : String) (e : ShapeError)
  | binding (e : BindingError)
  /-- A primitive that states its result shape, called without one. -/
  | targetShapeNeeded (primitive : String)
  | scalarMatmul
  /-- A failure that the recorded function itself reports. -/
  | reported (message : String)
  /-- Formal names for another number of arguments than given. -/
  | argumentNames (function : String) (declared given : Nat)
  | noOutputs (function : String)
  | unknownOutput (value : ValueId)
  deriving DecidableEq, Repr

/-- The text of a recording error. -/
def RecordingError.message : RecordingError → String
  | .shape e => e.message
  | .elementwise op e => s!"{op}: {e.message}"
  | .binding e => e.message
  | .targetShapeNeeded name => s!"`{name}` needs a target shape"
  | .scalarMatmul => "matmul: operands must have rank at least 1"
  | .reported message => message
  | .argumentNames function declared given =>
    s!"function `{function}` declares {declared} argument name(s) but was traced with " ++
      s!"{given} argument(s)"
  | .noOutputs function => s!"function `{function}` returned no values"
  | .unknownOutput v => s!"output {valueText v} is not a value of this trace"

/-- The state of a recording. -/
structure Recorder where
  graph : Graph
  arguments : List Argument
  bindings : List Binding
  tags : List DerivativeTag
  /-- The first failure. -/
  error : Option RecordingError
  deriving DecidableEq

/-- An action on a recorder. -/
abbrev Recording := StateM Recorder

namespace Recorder

/-- The recorder at the start. -/
def empty : Recorder := ⟨Graph.empty, [], [], [], none⟩

/-- A recorder that goes on from a trace, whose bindings are checked anew. -/
def resume (t : Trace) : Except RecordingError Recorder := do
  let bindings ← (replayBindings t.graph t.bindings).mapError .binding
  return ⟨t.graph, t.arguments, bindings, t.tags, none⟩

/-- Whether a failure was recorded. -/
def isPoisoned (r : Recorder) : Bool := r.error.isSome

/-- Closes the recording of a function with the outputs given. -/
def finish (r : Recorder) (name : String) (outputs : List ValueId) :
    Except RecordingError Trace :=
  match r.error with
  | some e => .error e
  | none =>
    if outputs.isEmpty then .error (.noOutputs name)
    else
      match outputs.find? (!r.graph.has ·) with
      | some bad => .error (.unknownOutput bad)
      | none => .ok ⟨name, r.graph, r.arguments, r.bindings, r.tags, outputs⟩

end Recorder

namespace Recording

/-! ## Inputs, constants and annotations -/

/-- Adds a value to the graph. -/
def add (v : Value) : Recording ValueId := fun r =>
  (r.graph.size, { r with graph := r.graph.push v })

/-- The shape of a value. -/
def shapeOf (v : ValueId) : Recording Shape := return (← get).graph.shape v

/-- The constant that a value is. -/
def literalOf? (v : ValueId) : Recording (Option Float) := return (← get).graph.literal? v

/-- Adds an input that belongs to the function's arguments. -/
def addArgument (shape : Shape) (name : Option String) (derivative : Bool) :
    Recording ValueId := do
  let v ← add ⟨.leaf, shape⟩
  modify fun r => { r with arguments := r.arguments ++ [⟨v, name, derivative⟩] }
  return v

/-- Adds an input of the function. -/
def argument (shape : Shape) (name : Option String) : Recording ValueId :=
  addArgument shape name false

/-- Adds a scalar constant. -/
def literal (x : Float) : Recording ValueId := add ⟨.literal x, []⟩

/-- Records a failure, unless there was one before, and yields a placeholder. -/
def fail (e : RecordingError) : Recording ValueId := do
  modify fun r => { r with error := r.error.or (some e) }
  literal 0

/-- Records that `value` is the tangent or cotangent of `primal`; saying so twice changes
nothing. -/
def tag (kind : DerivativeKind) (primal value : ValueId) : Recording Unit :=
  modify fun r =>
    let t : DerivativeTag := ⟨kind, primal, value⟩
    if r.tags.contains t then r else { r with tags := r.tags ++ [t] }

/-- Adds a tangent or cotangent input, shaped like its primal. -/
def derivativeInput (kind : DerivativeKind) (primal : ValueId) : Recording ValueId := do
  let v ← addArgument (← shapeOf primal) none true
  tag kind primal v
  return v

/-- Gives a value a name and yields the value. -/
def named (v : ValueId) (name : String) (dependsOn : Option (List ValueId)) :
    Recording ValueId := do
  let r ← get
  match addBinding r.graph r.bindings v name dependsOn with
  | .ok bindings => set { r with bindings := bindings }
  | .error e => discard (fail (.binding e))
  return v

/-! ## Operations -/

/-- Adds an operation whose result has the shape given. -/
def pushShaped (op : Operation) (operands : List ValueId) (shape : Shape) :
    Recording ValueId :=
  add ⟨.op op operands, shape⟩

/-- Adds an operation whose result shape follows from its operands. -/
def push (op : Operation) (operands : List ValueId) : Recording ValueId := do
  let g := (← get).graph
  match op.resultShape (operands.map g.shape) with
  | .ok shape => pushShaped op operands shape
  | .error e => fail (.shape e)

/-- The operand stretched to a result shape. Constants and operands of that shape stay as they
are. -/
def stretch (v : ValueId) (shape out : Shape) : Recording ValueId := do
  if shape = out || (← literalOf? v).isSome then return v
  else pushShaped (.broadcast (trailingDims shape.rank out.rank)) [v] out

/-- Adds an elementwise operation on two operands, which are stretched to their common
shape. -/
def elementwise (op : Operation) (a b : ValueId) : Recording ValueId := do
  let sa ← shapeOf a
  let sb ← shapeOf b
  match sa.broadcast sb with
  | .error e => fail (.elementwise op.name e)
  | .ok out =>
    let a ← stretch a sa out
    let b ← stretch b sb out
    pushShaped op [a, b] out

/-- Adds elementwise arithmetic. -/
def arith (op : Arith) (a b : ValueId) : Recording ValueId := elementwise (.arith op) a b

/-- The indicator of a comparison. -/
def compare (c : Comparison) (a b : ValueId) : Recording ValueId :=
  elementwise (.indicator c) a b

/-- The negation of a value. -/
def neg (a : ValueId) : Recording ValueId := push .neg [a]

/-- A named function of a value. -/
def call (f : NamedFunction) (a : ValueId) : Recording ValueId := push (.call f) [a]

/-- A contraction over the axes given. -/
def contract (axes : ContractionAxes) (a b : ValueId) : Recording ValueId :=
  push (.contract axes) [a, b]

/-- The matrix product of two values of rank at least one. -/
def matmul (a b : ValueId) : Recording ValueId := do
  let lhsRank := (← shapeOf a).rank
  let rhsRank := (← shapeOf b).rank
  if lhsRank = 0 || rhsRank = 0 then fail .scalarMatmul
  else contract (.matmul lhsRank rhsRank) a b

/-- The sum over axes. -/
def sum (a : ValueId) (axes : List Nat) : Recording ValueId := push (.reduceSum axes) [a]

/-- The sum over all axes. -/
def sumAll (a : ValueId) : Recording ValueId := do sum a (← shapeOf a).axes

/-- The value with its axes permuted. -/
def transpose (a : ValueId) (permutation : List Nat) : Recording ValueId :=
  push (.transpose permutation) [a]

/-- The value with its axes in reverse order. -/
def transposeAll (a : ValueId) : Recording ValueId := do
  transpose a (← shapeOf a).axes.reverse

/-- The value under another shape with as many entries. -/
def reshape (a : ValueId) (target : Shape) : Recording ValueId := do
  match (← shapeOf a).checkReshape target with
  | .ok () => pushShaped .reshape [a] target
  | .error e => fail (.shape e)

/-- The value stretched to a shape, the last axes aligned. -/
def broadcastTo (a : ValueId) (target : Shape) : Recording ValueId := do
  let own ← shapeOf a
  if target.rank < own.rank then fail (.shape (.notBroadcastable own target))
  else
    let dims := trailingDims own.rank target.rank
    match own.checkBroadcast dims target with
    | .ok () => pushShaped (.broadcast dims) [a] target
    | .error e => fail (.shape e)

/-- The value under another element type. -/
def cast (a : ValueId) (dtype : String) : Recording ValueId := push (.cast dtype) [a]

/-- The element type of a cast that names none. -/
def defaultDtype : String := "float32"

/-- The operation of a family on the operands given, with the parameters that follow from the
operands' shapes. -/
def ofFamily (name : String) (family : Family) (operands : List ValueId) :
    Recording ValueId :=
  match family, operands with
  | .arith op, [a, b] => arith op a b
  | .accumulate, [a, b] => elementwise .accumulate a b
  | .indicator c, [a, b] => compare c a b
  | .contract, [a, b] | .matmul, [a, b] => matmul a b
  | .neg, [a] => neg a
  | .call f, [a] => call f a
  | .reduceSum, [a] => sumAll a
  | .transpose, [a] => transposeAll a
  | .cast, [a] => cast a defaultDtype
  | _, _ => fail (.targetShapeNeeded name)

/-- Adds an operation by the name of its primitive. A name outside the table makes a foreign
operation. -/
def primitive (name : String) (operands : List ValueId) : Recording ValueId :=
  match primitive? name with
  | none => push (.foreign name) operands
  | some p =>
    if operands.length ≠ p.arity then
      fail (.shape (.operandCount name p.arity operands.length))
    else ofFamily name p.family operands

end Recording

end ArrayEquations
