import ArrayEquations.Derivative

/-!
# ArrayEquations — forward differentiation

Tangents are carried along with the values, in the order of the graph. A value without
a tangent has the tangent zero.

## Main definitions

* `tangentOf` — the tangent of an operation's result.
* `forward` — a trace with the tangents of its outputs.
-/

namespace ArrayEquations

namespace Forward

open Recording

/-- The sum of two tangents. -/
def add (a b : Option ValueId) : Recording (Option ValueId) :=
  match a, b with
  | some a, some b => some <$> arith .add a b
  | a, none => pure a
  | none, b => pure b

/-- The difference of two tangents. -/
def sub (a b : Option ValueId) : Recording (Option ValueId) :=
  match a, b with
  | some a, some b => some <$> arith .sub a b
  | a, none => pure a
  | none, some b => some <$> neg b

/-- The sum of two contributions to a tangent. -/
def accumulate (a b : Option ValueId) : Recording (Option ValueId) :=
  match a, b with
  | some a, some b => some <$> elementwise .accumulate a b
  | a, none => pure a
  | none, b => pure b

/-- The tangent of a named function's result `out` at `a`, from the tangent `t` of `a`. -/
def callTangent (f : NamedFunction) (a out t : ValueId) : Recording ValueId := do
  match f with
  | .relu => do
    let slope ← positive a
    arith .mul slope t
  | .exp => arith .mul out t
  | .log => arith .div t a
  | .sin => do
    let slope ← call .cos a
    arith .mul slope t
  | .cos => do
    let slope ← call .sin a
    let product ← arith .mul slope t
    neg product
  | .tanh => do
    let square ← arithRight .pow out 2
    let slope ← arithLeft .sub 1 square
    arith .mul slope t
  | .sqrt => do
    let double ← arithLeft .mul 2 out
    arith .div t double

/-- The tangent of `a op b = out`, from the tangents of `a` and `b`. -/
def arithTangent (op : Arith) (a b out : ValueId) (ta tb : Option ValueId) :
    Recording (Option ValueId) := do
  match op with
  | .add => add ta tb
  | .sub => sub ta tb
  | .mul => do
    let l ← through ta fun t => arith .mul t b
    let r ← through tb fun t => arith .mul a t
    add l r
  | .div => do
    let l ← through ta fun t => arith .div t b
    let r ← through tb fun t => do
      let product ← arith .mul a t
      let square ← arithRight .pow b 2
      arith .div product square
    sub l r
  | .pow => do
    let l ← through ta fun t => do
      let slope ← powerSlope a b
      arith .mul slope t
    let r ← through tb fun t => do
      let log ← call .log a
      let slope ← arith .mul out log
      arith .mul slope t
    add l r

end Forward

open Forward Recording in
/-- The tangent of the result `out` of an operation, or none where it is zero; `shape` is the
shape of the result. -/
def tangentOf (op : Operation) (operands : List ValueId) (out : ValueId) (shape : Shape)
    (tangents : Derivatives) : Differentiating (Option ValueId) := do
  let a := operands.getD 0 0
  let b := operands.getD 1 0
  let ta := tangents a
  let tb := tangents b
  if operands.all fun v => (tangents v).isNone then return none
  match op with
  | .arith op => arithTangent op a b out ta tb
  | .accumulate => Forward.accumulate ta tb
  | .neg => through ta neg
  | .call f => through ta (callTangent f a out)
  | .indicator _ => return none
  | .contract axes => do
    let l ← through ta fun t => contract axes t b
    let r ← through tb fun t => contract axes a t
    Forward.add l r
  | .reduceSum axes => through ta fun t => sum t axes
  | .broadcast dims => through ta fun t => pushShaped (.broadcast dims) [t] shape
  | .transpose permutation => through ta fun t => transpose t permutation
  | .reshape => through ta fun t => reshape t shape
  | .cast dtype => through ta fun t => cast t dtype
  | .foreign name => throw (.noRule name)

/-- Adds tangent inputs for the arguments given. -/
def seedTangents (arguments : List ValueId) : Recording Derivatives :=
  arguments.foldlM (fun tangents a => do
    let t ← Recording.derivativeInput .tangent a
    return tangents.set a t) Derivatives.none

/-- Carries the tangents through one value of the graph. -/
def carryTangent (g : Graph) (tangents : Derivatives) (v : ValueId) :
    Differentiating Derivatives := do
  match g.op? v with
  | none => return tangents
  | some (op, operands) =>
    match ← tangentOf op operands v (g.shape v) tangents with
    | none => return tangents
    | some t =>
      Recording.tag .tangent v t
      return tangents.set v t

/-- The tangent of an output; zero is a constant. -/
def outputTangent (tangents : Derivatives) (o : ValueId) : Recording ValueId := do
  let t ←
    match tangents o with
    | some t => pure t
    | none => Recording.literal 0
  Recording.tag .tangent o t
  return t

/-- The tangents of the outputs in order. -/
def outputTangents (tangents : Derivatives) (outputs : List ValueId) :
    Recording (List ValueId) :=
  outputs.mapM (outputTangent tangents)

/-- Records the tangents of a graph's outputs; the outputs of the derivative are the old ones
followed by their tangents. -/
def recordForward (g : Graph) (arguments outputs : List ValueId) :
    Differentiating (List ValueId) := do
  let seeds ← seedTangents arguments
  let tangents ← g.ids.foldlM (carryTangent g) seeds
  return outputs ++ (← outputTangents tangents outputs)

end ArrayEquations
