import ArrayEquations.Naming
import ArrayEquations.Options

/-!
# ArrayEquations — the symbols of derivative quantities

A derivative quantity is called after its primal, with a prefix that tells its kind.
Values of the primal computation keep their own form even when a tag says that they
also equal some derivative; only derivative inputs and values that the differentiation
made are renamed.

## Main definitions

* `primalClosure` — the values of the primal computation.
* `Threading` — the derivative equations, and what labels the outputs.
* `thread` — the derivative symbols of a trace.
* `accumulationTerms` — the contributions to an accumulated cotangent.
-/

namespace ArrayEquations

/-- A derivative equation of a bound value: the symbol stands for the value. -/
structure DerivativeEquation where
  kind : DerivativeKind
  primal : ValueId
  value : ValueId
  symbol : Symbol
  deriving DecidableEq, Repr

/-- What the derivative tags of a trace say about its equations. -/
structure Threading where
  /-- The derivative equations in tag order. -/
  derivatives : List DerivativeEquation
  /-- The values that stand for the function: its primal outputs. -/
  functionPrimals : List ValueId
  function : Symbol
  tangentPrefix : String
  cotangentPrefix : String
  deriving DecidableEq, Repr

namespace Threading

/-- The prefix of a kind of derivative. -/
def prefixOf (t : Threading) : DerivativeKind → String
  | .tangent => t.tangentPrefix
  | .cotangent => t.cotangentPrefix

/-- The symbol of the function for one of its primal outputs, numbered if there are several. -/
def functionSymbol? (t : Threading) (primal : ValueId) : Option Symbol :=
  match t.functionPrimals.idxOf? primal with
  | none => none
  | some position =>
    if t.functionPrimals.length = 1 then some t.function
    else some { t.function with
      name := t.function.name ++ "^\x7b(" ++ toString (position + 1) ++ ")\x7d" }

/-- What a primal is called in the names of its derivatives. -/
def primalSymbol? (t : Threading) (names : NameTable) (primal : ValueId) : Option Symbol :=
  (names.symbol? primal).or (t.functionSymbol? primal)

/-- The symbol on the left of an output's equation. A tangent is a derivative of the function,
a cotangent one with respect to an argument. -/
def outputSymbol (t : Threading) (trace : Trace) (names : NameTable) (output : ValueId) :
    Symbol :=
  match trace.lastTagOf? output with
  | none => (t.functionSymbol? output).getD t.function
  | some tag =>
    let base :=
      match tag.kind with
      | .tangent => (t.functionSymbol? tag.primal).or (names.symbol? tag.primal)
      | .cotangent => t.primalSymbol? names tag.primal
    (base.getD t.function).prefixed (t.prefixOf tag.kind)

/-- The derivative equations of a primal, of one kind. -/
def equationsFor (t : Threading) (kind : DerivativeKind) (primal : ValueId) :
    List DerivativeEquation :=
  t.derivatives.filter fun d => d.kind == kind && d.primal == primal

end Threading

/-! ## The primal computation -/

/-- Whether a tag is that of a cotangent input: the seed of a reverse differentiation. -/
def isSeedTag (g : Graph) (t : DerivativeTag) : Bool :=
  t.kind == .cotangent && g.isLeaf t.value

/-- The outputs that are no derivative quantities, then the primals of the seeds. -/
def functionPrimals (trace : Trace) : List ValueId :=
  let outputs := trace.outputs.filter fun o => (trace.lastTagOf? o).isNone
  let seeds := (trace.tags.filter (isSeedTag trace.graph)).map (·.primal)
  (outputs ++ seeds).eraseDups

/-- Adds the operands of every value in the list, last value first. In an ordered graph the
operands of a value are met after it. -/
def closeDownward (g : Graph) (marked : List ValueId) : List ValueId → List ValueId
  | [] => marked
  | v :: rest =>
    closeDownward g (if marked.contains v then g.operands v ++ marked else marked) rest

/-- The values of the primal computation: all that the primals of tags and the bound values
are computed from. -/
def primalClosure (trace : Trace) (names : NameTable) : List ValueId :=
  let roots := trace.tags.map (·.primal) ++ names.bound.map (·.value)
  (closeDownward trace.graph roots trace.graph.ids.reverse).eraseDups

/-! ## Threading -/

/-- The symbol that a tag gives its value, if it gives one. Constants, values that have a
symbol, and values of the primal computation other than inputs get none. A seed stands for
the derivative of the function. -/
def tagSymbol? (trace : Trace) (t : Threading) (closure : List ValueId) (names : NameTable)
    (tag : DerivativeTag) : Option Symbol :=
  let g := trace.graph
  let isLeaf := g.isLeaf tag.value
  if (g.literal? tag.value).isSome || names.hasSymbol tag.value then none
  else if !isLeaf && closure.contains tag.value then none
  else
    let base :=
      if isSeedTag g tag then (t.functionSymbol? tag.primal).or (names.symbol? tag.primal)
      else t.primalSymbol? names tag.primal
    base.map (·.prefixed (t.prefixOf tag.kind))

/-- The table with the symbols that the tags give. -/
def nameTags (trace : Trace) (t : Threading) (closure : List ValueId) (names : NameTable) :
    NameTable :=
  trace.tags.foldl (fun names tag =>
    match tagSymbol? trace t closure names tag with
    | some symbol => names.assign tag.value symbol
    | none => names) names

/-- The table with a placeholder for every argument that nothing else names. -/
def nameLeftovers (arguments : List Argument) (names : NameTable) : NameTable :=
  arguments.zipIdx.foldl (fun names (a, position) =>
    names.assign a.value (.plain (placeholder position))) names

/-- The derivative equations of the bound values, at most one for each kind and primal. -/
def derivativeEquations (trace : Trace) (t : Threading) (names : NameTable) :
    List DerivativeEquation :=
  let tags := trace.tags.filter fun tag =>
    names.isBound tag.primal && !trace.graph.isLeaf tag.value
  let firsts := tags.foldl (fun firsts tag =>
    if firsts.any fun f => f.kind == tag.kind && f.primal == tag.primal then firsts
    else firsts ++ [tag]) []
  firsts.filterMap fun tag =>
    (names.symbol? tag.primal).map fun symbol =>
      ⟨tag.kind, tag.primal, tag.value, symbol.prefixed (t.prefixOf tag.kind)⟩

/-- The table with the symbols of derivative quantities, and the derivative equations. -/
def thread (trace : Trace) (names : NameTable) (options : Options) : NameTable × Threading :=
  let t : Threading :=
    { derivatives := []
      functionPrimals := functionPrimals trace
      function := names.function
      tangentPrefix := options.tangentPrefix
      cotangentPrefix := options.cotangentPrefix }
  let names := nameTags trace t (primalClosure trace names) names
  let names := nameLeftovers trace.arguments names
  (names, { t with derivatives := derivativeEquations trace t names })

/-! ## Accumulated cotangents -/

/-- Whether a value is the sum of two contributions. -/
def isAccumulation (g : Graph) (v : ValueId) : Bool :=
  match g.op? v with
  | some (.accumulate, _) => true
  | _ => false

/-- The contributions to the operands of a value; named accumulations stay whole. The fuel
bounds how deep sums are nested. -/
def collectTerms (g : Graph) (names : NameTable) : Nat → ValueId → List ValueId
  | 0, v => [v]
  | fuel + 1, v =>
    (g.operands v).flatMap fun operand =>
      if isAccumulation g operand && !names.hasSymbol operand then
        collectTerms g names fuel operand
      else [operand]

/-- The contributions that make up a value, in the order in which they were added; a value
that is no accumulation is its own. -/
def accumulationTerms (g : Graph) (root : ValueId) (names : NameTable) : List ValueId :=
  if isAccumulation g root then collectTerms g names (root + 1) root else [root]

end ArrayEquations
