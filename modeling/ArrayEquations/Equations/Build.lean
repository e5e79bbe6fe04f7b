import ArrayEquations.Expression.Sourced
import ArrayEquations.Naming.Threading
import ArrayEquations.Operation.Rule

/-!
# ArrayEquations — equations of a trace

Every equation is built from the value it is about, its root, with the indices of the
root's axes in scope. A value that has a symbol is written as that symbol, except the
root itself; every other value is written as its operation over its operands. Axes of
extent one have no index. A contraction or a sum over axes brings the symbols it binds
into scope while its operands are built.

## Main definitions

* `Axes` — the indices of a value's axes.
* `Expansion` — what stays the same while one formula is built.
* `Expansion.build` — the formula of a value, with its sources.
* `Builder` — a graph with its symbols and the indices in scope.
* `Builder.equation` — one equation, and `buildProgram` those of a trace.
-/

namespace ArrayEquations

/-- The index of each axis; none on an axis of extent one. -/
abbrev Axes := List (Option Index)

namespace Axes

/-- The index of an axis. -/
def at? (axes : Axes) (k : Nat) : Option Index := (axes[k]?).join

/-- The indices that are there. -/
def indices (axes : Axes) : List Index := axes.filterMap id

end Axes

/-- An index unless the extent is one. -/
def unlessSingle (extent : Nat) (i : Option Index) : Option Index :=
  if extent = 1 then none else i

/-- The symbol of a value with the indices of its axes. -/
def reference (source : ValueId) (symbol : Symbol) (axes : Axes) : SourcedExpr :=
  .var source ⟨symbol, axes.indices⟩

/-- The summation of an operation over the indices; without indices the body itself. -/
def summation (source : ValueId) (indices : List Index) (body : SourcedExpr) : SourcedExpr :=
  if indices.isEmpty then body else .sum source indices body

/-! ## Indices of operands -/

/-- The indices of an elementwise operand, whose last axes are those of the result. -/
def elementwiseAxes (operand out : Shape) (axes : Axes) : Axes :=
  operand.zipIdx.map fun (extent, k) =>
    unlessSingle extent (axes.at? (out.rank - operand.rank + k))

/-- The indices of a broadcast operand. -/
def broadcastAxes (operand : Shape) (dims : List Nat) (axes : Axes) : Axes :=
  (operand.zip dims).map fun (extent, axis) => unlessSingle extent (axes.at? axis)

/-- The indices of a transposed operand. -/
def transposeAxes (operand : Shape) (permutation : List Nat) (axes : Axes) : Axes :=
  operand.axes.map fun axis =>
    match permutation.reverse.idxOf? axis with
    | some k => axes.at? (permutation.length - 1 - k)
    | none => none

/-- Gives the axes whose extent is not one the indices of the list in order. -/
def distribute : List Nat → Axes → Axes
  | [], _ => []
  | extent :: rest, given =>
    if extent = 1 then none :: distribute rest given
    else given.headD none :: distribute rest given.tail

/-- The indices of a reshaped operand: those of the surviving axes in order. -/
def reshapeAxes (operand out : Shape) (axes : Axes) : Axes :=
  distribute operand (((axes.zip out).filter fun (_, extent) => extent != 1).map (·.1))

/-- Brings a new index into scope for each summed axis whose extent is not one: the operand's
indices, the new ones, and the scope with them. -/
def reduceAxes (axes : List Nat) :
    List (Nat × Nat) → Axes → IndexScope → Axes × List Index × IndexScope
  | [], _, scope => ([], [], scope)
  | (extent, axis) :: rest, kept, scope =>
    if axes.contains axis then
      if extent = 1 then
        let (operand, bound, scope) := reduceAxes axes rest kept scope
        (none :: operand, bound, scope)
      else
        let (i, scope) := scope.fresh
        let (operand, bound, scope) := reduceAxes axes rest kept scope
        (some i :: operand, i :: bound, scope)
    else
      let (operand, bound, scope) := reduceAxes axes rest kept.tail scope
      (unlessSingle extent (kept.headD none) :: operand, bound, scope)

/-- Brings a new index into scope for each pair of contracted axes unless one of them has
extent one: the pairs with their indices, and the scope with them. -/
def contractedIndices (lhs rhs : Shape) :
    List (Nat × Nat) → IndexScope → List (Nat × Nat × Index) × IndexScope
  | [], scope => ([], scope)
  | (l, r) :: rest, scope =>
    if lhs.extent l = 1 || rhs.extent r = 1 then contractedIndices lhs rhs rest scope
    else
      let (i, scope) := scope.fresh
      let (pairs, scope) := contractedIndices lhs rhs rest scope
      ((l, r, i) :: pairs, scope)

/-- The index that a list of placed indices has for an axis; of several the last. -/
def placed (placements : List (Nat × Option Index)) (axis : Nat) : Option Index :=
  (placements.reverse.lookup axis).join

/-- The indices of an operand of a contraction: its batch axes and free axes take the result's
indices, the latter from position `offset` on, and its contracted axes the bound ones. -/
def contractedAxes (operand : Shape) (batch free : List Nat) (offset : Nat)
    (bound : List (Nat × Index)) (axes : Axes) : Axes :=
  let fromResult (placed : List Nat) (offset : Nat) : List (Nat × Option Index) :=
    placed.zipIdx.map fun (axis, k) =>
      (axis, unlessSingle (operand.extent axis) (axes.at? (offset + k)))
  let placements := fromResult batch 0 ++ fromResult free offset ++
    bound.map fun (axis, i) => (axis, some i)
  operand.axes.map (placed placements)

/-! ## Formulas -/

/-- What stays the same while one formula is built. -/
structure Expansion where
  graph : Graph
  names : NameTable
  /-- The value that is expanded although it has a symbol. -/
  root : Option ValueId

namespace Expansion

/-- A way to build the formula of a value whose axes carry the indices given. -/
abbrev Recur := IndexScope → ValueId → Axes → Except UnsupportedPrimitive SourcedExpr

/-- The formula of an elementwise operand. -/
def elementwise (x : Expansion) (recur : Recur) (scope : IndexScope) (out : Shape)
    (axes : Axes) (operand : ValueId) : Except UnsupportedPrimitive SourcedExpr :=
  recur scope operand (elementwiseAxes (x.graph.shape operand) out axes)

/-- The formula of a contraction. -/
def contract (x : Expansion) (recur : Recur) (scope : IndexScope) (id : ValueId)
    (axes : ContractionAxes) (lhs rhs : ValueId) (out : Axes) :
    Except UnsupportedPrimitive SourcedExpr := do
  let ls := x.graph.shape lhs
  let rs := x.graph.shape rhs
  let lhsFree := axes.lhsFree ls.rank
  let rhsFree := axes.rhsFree rs.rank
  let batch := axes.lhsBatch.length
  let paired := axes.lhsBatch.zip axes.rhsBatch
  let (pairs, inner) :=
    contractedIndices ls rs (axes.lhsContract.zip axes.rhsContract) scope
  let lhsAxes := contractedAxes ls (paired.map (·.1)) lhsFree batch
    (pairs.map fun (l, _, i) => (l, i)) out
  let rhsAxes := contractedAxes rs (paired.map (·.2)) rhsFree (batch + lhsFree.length)
    (pairs.map fun (_, r, i) => (r, i)) out
  let l ← recur inner lhs lhsAxes
  let r ← recur inner rhs rhsAxes
  return summation id (pairs.map fun (_, _, i) => i) (.binary .mul l r)

/-- The formula of a sum over axes. -/
def reduce (x : Expansion) (recur : Recur) (scope : IndexScope) (id : ValueId)
    (axes : List Nat) (operand : ValueId) (out : Axes) :
    Except UnsupportedPrimitive SourcedExpr := do
  let (operandAxes, bound, inner) :=
    reduceAxes axes (x.graph.shape operand).zipIdx out scope
  return summation id bound (← recur inner operand operandAxes)

/-- The formula of a reshape, which may only insert or drop axes of extent one. -/
def reshape (x : Expansion) (recur : Recur) (scope : IndexScope) (id operand : ValueId)
    (shape : Shape) (axes : Axes) : Except UnsupportedPrimitive SourcedExpr :=
  let own := x.graph.shape operand
  if own.nonSingleton ≠ shape.nonSingleton then .error (.reshape id own shape)
  else recur scope operand (reshapeAxes own shape axes)

/-- The formula of an operation by its rule; the operands are built by `recur`. -/
def applyRule (x : Expansion) (recur : Recur) (scope : IndexScope) (id : ValueId)
    (rule : Rule) (operands : List ValueId) (shape : Shape) (axes : Axes) :
    Except UnsupportedPrimitive SourcedExpr :=
  let first := operands.getD 0 0
  let second := operands.getD 1 0
  match rule with
  | .elide => recur scope first axes
  | .reshape => x.reshape recur scope id first shape axes
  | .operator op => do
    let l ← x.elementwise recur scope shape axes first
    let r ← x.elementwise recur scope shape axes second
    return .binary op l r
  | .negate => do return .neg (← x.elementwise recur scope shape axes first)
  | .call f => do return .call f (← x.elementwise recur scope shape axes first)
  | .indicator c => do
    let l ← x.elementwise recur scope shape axes first
    let r ← x.elementwise recur scope shape axes second
    return .indicator c l r
  | .contract paired => x.contract recur scope id paired first second axes
  | .reduce summed => x.reduce recur scope id summed first axes
  | .broadcast dims =>
    recur scope first (broadcastAxes (x.graph.shape first) dims axes)
  | .transpose permutation =>
    recur scope first (transposeAxes (x.graph.shape first) permutation axes)
  | .accumulate => do
    let terms := accumulationTerms x.graph id x.names
    let built ← terms.mapM (x.elementwise recur scope shape axes)
    match built with
    | [single] => return single
    | built => return .terms built

/-- The formula of a value whose axes carry the indices given. The fuel bounds how deep
operations are nested. -/
def buildWithin (x : Expansion) : Nat → Recur
  | fuel, scope, id, axes =>
    match (if x.root = some id then none else x.names.symbol? id) with
    | some symbol => .ok (reference id symbol axes)
    | none =>
      match x.graph.get? id with
      | none => .ok (reference id (.plain (valueText id)) axes)
      | some value =>
        match value.content, fuel with
        | .leaf, _ =>
          .ok (reference id ((x.names.symbol? id).getD (.plain (valueText id))) axes)
        | .literal c, _ => .ok (.literal c)
        | .op _ _, 0 => .ok (reference id (.plain (valueText id)) axes)
        | .op op operands, fuel + 1 =>
          match op.rule? with
          | none => .error (.foreign op.name id)
          | some rule => x.applyRule (x.buildWithin fuel) scope id rule operands value.shape axes

/-- The formula of a value whose axes carry the indices given. In an ordered graph operations
are nested no deeper than their position. -/
def build (x : Expansion) : Recur := x.buildWithin x.graph.size

end Expansion

/-! ## Equations -/

/-- A graph with its symbols and the indices in scope. -/
structure Builder where
  graph : Graph
  names : NameTable
  scope : IndexScope

namespace Builder

/-- A builder with no index in scope. -/
def new (graph : Graph) (names : NameTable) (alphabet : String) : Builder :=
  ⟨graph, names, IndexScope.ofAlphabet alphabet⟩

/-- The formula of a value whose axes carry the indices given. -/
def build (b : Builder) (id : ValueId) (axes : Axes) : Except UnsupportedPrimitive Expr :=
  (Expansion.build ⟨b.graph, b.names, none⟩ b.scope id axes).map (·.expr)

/-- A new index for every axis whose extent is not one. -/
def freeIndices : Shape → IndexScope → Axes × IndexScope
  | [], scope => ([], scope)
  | extent :: rest, scope =>
    if extent = 1 then
      let (axes, scope) := freeIndices rest scope
      (none :: axes, scope)
    else
      let (i, scope) := scope.fresh
      let (axes, scope) := freeIndices rest scope
      (some i :: axes, scope)

/-- The right-hand side of the equation of a symbol with a value: the symbol of the value if
that is another one, and the expanded value otherwise. -/
def rightHandSide (b : Builder) (symbol : Symbol) (root : ValueId) (scope : IndexScope)
    (axes : Axes) : Except UnsupportedPrimitive SourcedExpr :=
  let expanded := Expansion.build ⟨b.graph, b.names, some root⟩ scope root axes
  match b.names.symbol? root with
  | some own => if own = symbol then expanded else .ok (reference root own axes)
  | none => expanded

/-- The equation of a symbol with a value. An equation that cannot be built leaves the indices
of its left-hand side in scope. -/
def equation (b : Builder) (kind : EquationKind) (symbol : Symbol) (root : ValueId) :
    Except UnsupportedPrimitive Equation × Builder :=
  let mark := b.scope.mark
  let (axes, scope) := freeIndices (b.graph.shape root) b.scope
  match b.rightHandSide symbol root scope axes with
  | .error e => (.error e, { b with scope := scope })
  | .ok rhs =>
    (.ok ⟨kind, ⟨symbol, axes.indices⟩, rhs.expr⟩, { b with scope := scope.release mark })

end Builder

/-- What an equation of a program is to be about. -/
structure EquationPlan where
  kind : EquationKind
  symbol : Symbol
  root : ValueId
  deriving DecidableEq, Repr

/-- The equations of the derivatives of a bound value. -/
def planDerivatives (t : Threading) (kind : DerivativeKind) (v : ValueId) : List EquationPlan :=
  (t.equationsFor kind v).map fun d => ⟨.derivative, d.symbol, d.value⟩

/-- The equations of a binding: its own, followed by that of its tangent; an alias has one
unless it is the symbol of the value anyway. -/
def planBinding (names : NameTable) (t : Threading) (b : BoundName) : List EquationPlan :=
  if b.ownsValue then
    ⟨.binding, b.symbol, b.value⟩ :: planDerivatives t .tangent b.value
  else if names.symbol? b.value = some b.symbol then []
  else [⟨.binding, b.symbol, b.value⟩]

/-- The equations of a program: bindings with their tangents in order of declaration, the
cotangents of bound values in reverse order, then the outputs. -/
def planProgram (trace : Trace) (names : NameTable) (t : Threading) : List EquationPlan :=
  let owning := names.bound.filter (·.ownsValue)
  names.bound.flatMap (planBinding names t) ++
    owning.reverse.flatMap (fun b => planDerivatives t .cotangent b.value) ++
    trace.outputs.map fun o => ⟨.output, t.outputSymbol trace names o, o⟩

/-- Builds equations one after the other, up to the first that cannot be built. -/
def buildPlanned (b : Builder) : List EquationPlan → Except UnsupportedPrimitive Program
  | [] => .ok []
  | p :: rest =>
    match b.equation p.kind p.symbol p.root with
    | (.error e, _) => .error e
    | (.ok e, b) => do
      let es ← buildPlanned b rest
      return e :: es

/-- All equations of a trace. -/
def buildProgram (trace : Trace) (names : NameTable) (t : Threading) (options : Options) :
    Except UnsupportedPrimitive Program :=
  buildPlanned (Builder.new trace.graph names options.indexAlphabet)
    (planProgram trace names t)

end ArrayEquations
