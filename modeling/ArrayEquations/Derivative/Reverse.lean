import ArrayEquations.Derivative

/-!
# ArrayEquations — reverse differentiation

Cotangents are carried from the outputs back to the arguments, against the order of the
graph. Each operation gives every operand that depends on a chosen argument one
contribution; contributions to one value are added in the order in which they arrive.

A gradient starts from the constant one. Products with that seed, or with an array that
only repeats or rearranges it, are not recorded.

## Main definitions

* `dependents` — the values that depend on the chosen arguments.
* `Reverse.unbroadcast` — a contribution summed down to its operand's shape.
* `Reverse.contributions` — what an operation gives its operands.
* `recordReverse` — the cotangents of the arguments.
-/

namespace ArrayEquations

/-- The values that depend on any of the sources. -/
def dependents (g : Graph) (sources : List ValueId) : List ValueId :=
  g.ids.foldl (fun found v =>
    let depends :=
      match g.op? v with
      | some (_, operands) => operands.any found.contains
      | none => sources.contains v
    if depends then v :: found else found) []

/-- What stays the same during a reverse differentiation. -/
structure Reverse where
  /-- The graph that is differentiated. -/
  graph : Graph
  /-- The constant seed of a gradient. -/
  unit : Option ValueId
  /-- The values that depend on the chosen arguments. -/
  depends : List ValueId

namespace Reverse

open Recording

/-! ## Products with the seed -/

/-- Whether a value is the unit, or comes from it by operations that only repeat or rearrange
entries. The fuel bounds the number of those. -/
def comesFromUnit (g : Graph) (unit : ValueId) : Nat → ValueId → Bool
  | fuel, v =>
    v == unit ||
      match fuel, g.op? v with
      | fuel + 1, some (op, operand :: _) =>
        match op with
        | .broadcast _ | .reshape | .cast _ | .transpose _ => comesFromUnit g unit fuel operand
        | _ => false
      | _, _ => false

/-- Whether a value is the seed of a gradient, or an array of it. -/
def isUnit (x : Reverse) (v : ValueId) : Recording Bool := do
  let g := (← get).graph
  return x.unit.any fun unit => comesFromUnit g unit g.size v

/-- The product of two values, where the seed counts as one. -/
def times (x : Reverse) (a b : ValueId) : Recording ValueId := do
  if ← x.isUnit a then return b
  else if ← x.isUnit b then return a
  else arith .mul a b

/-! ## Shapes -/

/-- The axes over which an array of a shape is summed to fit a target: those the target lacks,
and those of extent one in the target only. -/
def surplusAxes (shape target : Shape) : List Nat :=
  let lead := shape.rank - target.rank
  let offset := target.rank - shape.rank
  let aligned := (List.range (target.rank - offset)).filter fun k =>
    target.extent (offset + k) == 1 && shape.extent (lead + k) != 1
  List.range lead ++ aligned.map (lead + ·)

/-- The sum over axes; over none the value itself. -/
def sumOver (v : ValueId) (axes : List Nat) : Recording ValueId :=
  if axes.isEmpty then pure v else sum v axes

/-- A contribution summed down to its operand's shape, which undoes implicit broadcasting. A
contribution that is smaller than the operand is stretched instead. -/
def unbroadcast (contribution : ValueId) (target : Shape) : Recording ValueId := do
  let shape ← shapeOf contribution
  if shape = target then return contribution
  let summed ← sumOver contribution (surplusAxes shape target)
  let shape ← shapeOf summed
  if shape = target then return summed
  else if shape.size = target.size then reshape summed target
  else broadcastTo summed target

/-- The inverse of a permutation: position `k` of the result says where `k` stands. -/
def inversePermutation (permutation : List Nat) : List Nat :=
  (List.range permutation.length).map fun axis =>
    permutation.length - 1 - ((permutation.reverse.idxOf? axis).getD (permutation.length - 1))

/-- The partners of axes in the order of the axes. -/
def partnersInOrder (axes partners : List Nat) : List Nat :=
  let before (p q : Nat × Nat) : Bool := p.1 < q.1 || (p.1 == q.1 && p.2 ≤ q.2)
  ((axes.zip partners).mergeSort before).map (·.2)

/-- The value with its axes put in order, where axis `k` is the operand's axis `order[k]`. -/
def arrange (v : ValueId) (order : List Nat) : Recording ValueId :=
  if order = List.range order.length then pure v else transpose v (inversePermutation order)

/-! ## Contributions -/

/-- The contribution of a named function's result `out` at `a`. -/
def callContribution (x : Reverse) (f : NamedFunction) (a out ct : ValueId) :
    Recording ValueId := do
  match f with
  | .relu => do
    let slope ← positive a
    x.times slope ct
  | .exp => x.times ct out
  | .log => arith .div ct a
  | .sin => do
    let slope ← call .cos a
    x.times ct slope
  | .cos => do
    let slope ← call .sin a
    let product ← x.times ct slope
    neg product
  | .tanh => do
    let square ← arithRight .pow out 2
    let slope ← arithLeft .sub 1 square
    x.times ct slope
  | .sqrt => do
    let double ← arithLeft .mul 2 out
    arith .div ct double

/-- The contribution of `a op b = out` to `a`. -/
def lhsContribution (x : Reverse) (op : Arith) (a b ct : ValueId) : Recording ValueId := do
  match op with
  | .add | .sub => return ct
  | .mul => x.times ct b
  | .div => arith .div ct b
  | .pow => do
    let slope ← powerSlope a b
    x.times ct slope

/-- The contribution of `a op b = out` to `b`. -/
def rhsContribution (x : Reverse) (op : Arith) (a b out ct : ValueId) :
    Recording ValueId := do
  match op with
  | .add => return ct
  | .sub => neg ct
  | .mul => x.times a ct
  | .div => do
    let product ← x.times ct a
    let square ← arithRight .pow b 2
    let quotient ← arith .div product square
    neg quotient
  | .pow => do
    let log ← call .log a
    let slope ← arith .mul out log
    x.times ct slope

/-- The axes of a result over which its cotangent is summed to undo a broadcast: the new ones,
and those that were stretched. -/
def stretchedAxes (operand : Shape) (dims : List Nat) (target : Shape) : List Nat :=
  target.axes.filter fun axis =>
    match dims.idxOf? axis with
    | none => true
    | some k => operand.extent k == 1 && target.extent axis != 1

/-- The contribution of a broadcast. -/
def broadcastContribution (operand : Shape) (dims : List Nat) (target : Shape) (ct : ValueId) :
    Recording ValueId := do
  let summed ← sumOver ct (stretchedAxes operand dims target)
  if (← shapeOf summed) = operand then return summed else reshape summed operand

/-- The contribution of a contraction to its left operand. The axes of the product are the
batch axes, the operand's free axes, and its contracted axes in the order of their
partners. -/
def contractLhs (axes : ContractionAxes) (lhsRank rhsRank : Nat) (b ct : ValueId) :
    Recording ValueId := do
  let batch := axes.lhsBatch.length
  let lhsFree := axes.lhsFree lhsRank
  let rhsFree := axes.rhsFree rhsRank
  let product ← contract
    { lhsContract := (List.range rhsFree.length).map (batch + lhsFree.length + ·)
      rhsContract := rhsFree
      lhsBatch := List.range batch
      rhsBatch := axes.rhsBatch } ct b
  arrange product
    (axes.lhsBatch ++ lhsFree ++ partnersInOrder axes.rhsContract axes.lhsContract)

/-- The contribution of a contraction to its right operand. The axes of the product are the
batch axes, the operand's contracted axes in the order of their partners, and its free
axes. -/
def contractRhs (axes : ContractionAxes) (lhsRank rhsRank : Nat) (a ct : ValueId) :
    Recording ValueId := do
  let batch := axes.lhsBatch.length
  let lhsFree := axes.lhsFree lhsRank
  let rhsFree := axes.rhsFree rhsRank
  let product ← contract
    { lhsContract := lhsFree
      rhsContract := (List.range lhsFree.length).map (batch + ·)
      lhsBatch := axes.lhsBatch
      rhsBatch := List.range batch } a ct
  arrange product
    (axes.rhsBatch ++ partnersInOrder axes.lhsContract axes.rhsContract ++ rhsFree)

/-- The contribution to one operand, brought to the operand's shape; none if the operand does
not depend on a chosen argument. -/
def emit (x : Reverse) (operand : ValueId) (contribution : Recording ValueId) :
    Recording (List (ValueId × ValueId)) := do
  if x.depends.contains operand then
    let c ← contribution
    let c ← unbroadcast c (x.graph.shape operand)
    return [(operand, c)]
  else return []

/-- What the operation of `out`, with the cotangent `ct`, gives its operands. -/
def contributions (x : Reverse) (op : Operation) (operands : List ValueId)
    (out ct : ValueId) : Differentiating (List (ValueId × ValueId)) := do
  let a := operands.getD 0 0
  let b := operands.getD 1 0
  let sa := x.graph.shape a
  let sb := x.graph.shape b
  match op with
  | .arith op => do
    let l ← x.emit a (x.lhsContribution op a b ct)
    let r ← x.emit b (x.rhsContribution op a b out ct)
    return l ++ r
  | .accumulate => do
    let l ← x.emit a (pure ct)
    let r ← x.emit b (pure ct)
    return l ++ r
  | .neg => x.emit a (neg ct)
  | .call f => x.emit a (x.callContribution f a out ct)
  | .indicator _ => return []
  | .cast _ => x.emit a (pure ct)
  | .reshape => x.emit a (reshape ct sa)
  | .transpose permutation => x.emit a (transpose ct (inversePermutation permutation))
  | .broadcast dims => x.emit a (broadcastContribution sa dims (x.graph.shape out) ct)
  | .reduceSum axes =>
    let kept := sa.axes.filter fun axis => !axes.contains axis
    x.emit a (pushShaped (.broadcast kept) [ct] sa)
  | .contract axes => do
    let l ← x.emit a (contractLhs axes sa.rank sb.rank b ct)
    let r ← x.emit b (contractRhs axes sa.rank sb.rank a ct)
    return l ++ r
  | .foreign name => throw (.noRule name)

/-! ## The way back -/

/-- Adds a contribution to the cotangent of a value. -/
def accumulate (cotangents : Derivatives) (target contribution : ValueId) :
    Recording Derivatives := do
  match cotangents target with
  | none => return cotangents.set target contribution
  | some before =>
    let sum ← elementwise .accumulate before contribution
    return cotangents.set target sum

/-- Adds contributions to the cotangents of their targets, one after the other. -/
def accumulateAll (cotangents : Derivatives) (given : List (ValueId × ValueId)) :
    Recording Derivatives :=
  given.foldlM (fun cotangents (target, c) => accumulate cotangents target c) cotangents

/-- Adds the seed of an output: the unit of a gradient, or an input of its own. -/
def seedOutput (x : Reverse) (cotangents : Derivatives) (o : ValueId) :
    Recording Derivatives := do
  let seed ←
    match x.unit with
    | some unit => do
      tag .cotangent o unit
      pure unit
    | none => derivativeInput .cotangent o
  if x.depends.contains o then accumulate cotangents o seed else return cotangents

/-- Adds the seeds of the outputs in order. -/
def seedOutputs (x : Reverse) (outputs : List ValueId) : Recording Derivatives :=
  outputs.foldlM x.seedOutput Derivatives.none

/-- Carries the cotangent of a value on to the operands of its operation; bound values get a
tag. -/
def carryBack (x : Reverse) (bound : List ValueId) (cotangents : Derivatives) (v : ValueId) :
    Differentiating Derivatives := do
  match cotangents v, x.graph.op? v with
  | some ct, some (op, operands) =>
    if bound.contains v then tag .cotangent v ct
    accumulateAll cotangents (← x.contributions op operands v ct)
  | _, _ => return cotangents

/-- The cotangent of an argument; zero is a constant. -/
def argumentCotangent (cotangents : Derivatives) (a : ValueId) : Recording ValueId := do
  let ct ←
    match cotangents a with
    | some ct => pure ct
    | none => literal 0
  tag .cotangent a ct
  return ct

/-- The cotangents of the arguments in order. -/
def argumentCotangents (cotangents : Derivatives) (arguments : List ValueId) :
    Recording (List ValueId) :=
  arguments.mapM (argumentCotangent cotangents)

end Reverse

open Reverse in
/-- Records the cotangents of the arguments given, from seeds that are inputs or, for a
gradient, the constant one. -/
def recordReverse (g : Graph) (bound arguments outputs : List ValueId) (gradient : Bool) :
    Differentiating (List ValueId) := do
  let unit ← if gradient then some <$> Recording.literal 1 else pure none
  let x : Reverse := ⟨g, unit, dependents g arguments⟩
  let seeds ← x.seedOutputs outputs
  let cotangents ← g.ids.reverse.foldlM (x.carryBack bound) seeds
  argumentCotangents cotangents arguments

end ArrayEquations
