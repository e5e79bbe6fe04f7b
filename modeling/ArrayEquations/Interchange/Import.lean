import ArrayEquations.Interchange.Draft
import ArrayEquations.Operation.Primitive
import ArrayEquations.Operation.ResultShape
import ArrayEquations.Recorder
import ArrayEquations.Trace.Binder

/-!
# ArrayEquations — importing traces

The checks that make a trace of a document: values stand in the order of their
positions, operands before the operations that use them, shapes follow from the
operands, the arguments are exactly the inputs, and annotations speak of values that
exist. A primitive outside the table is a foreign operation, whose shape is taken as
it is.

## Main definitions

* `ImportError` — why a document is no trace.
* `Trace.ofDraft` — the checks.
* `Trace.ofText` — the trace of a document's text.
-/

namespace ArrayEquations

/-- Why a document is no trace. -/
inductive ImportError where
  | decode (e : DecodeError)
  /-- A value with another position than its own. -/
  | outOfOrder (id position : Nat)
  | undefinedOperand (id operand : ValueId)
  | operandCount (primitive : String) (expected given : Nat)
  | missingParameter (primitive field : String)
  | shape (id : ValueId) (e : ShapeError)
  /-- A shape that does not follow from the operands. -/
  | shapeMismatch (id : ValueId) (operation : String) (inferred stated : Shape)
  | argumentNotLeaf (value : ValueId)
  | argumentRepeated (value : ValueId)
  | leafNotArgument (value : ValueId)
  | tagUnknown (tag : DerivativeTag)
  | noOutputs
  | unknownOutput (value : ValueId)
  | binding (e : BindingError)
  deriving DecidableEq, Repr

/-- The cause of an import error. -/
def ImportError.cause : ImportError → String
  | .decode e => e.message
  | .outOfOrder id position =>
    s!"value {valueText id} listed at position {position}; values must be listed in id order"
  | .undefinedOperand id operand =>
    s!"{valueText id} uses {valueText operand}, which is not defined before it"
  | .operandCount name expected given =>
    s!"`{name}` takes {expected} operand(s), got {given}"
  | .missingParameter name field => s!"`{name}` is missing `{field}`"
  | .shape id e => s!"{valueText id}: {e.message}"
  | .shapeMismatch id op inferred stated =>
    s!"{valueText id}: `{op}` produces {inferred.text}, but the trace says {stated.text}"
  | .argumentNotLeaf v => s!"argument {valueText v} is not a leaf"
  | .argumentRepeated v => s!"argument {valueText v} listed twice"
  | .leafNotArgument v => s!"leaf {valueText v} is not an argument"
  | .tagUnknown tag =>
    s!"derivative tag refers to unknown value ({valueText tag.value} of {valueText tag.primal})"
  | .noOutputs => "no outputs"
  | .unknownOutput v => s!"output {valueText v} does not exist"
  | .binding e => e.message

/-- The text of an import error. -/
def ImportError.message (e : ImportError) : String := "invalid trace: " ++ e.cause

/-- A parameter that has to be there. -/
def needParameter (primitive field : String) (found : Option (List Nat)) :
    Except ImportError (List Nat) :=
  match found with
  | some axes => .ok axes
  | none => .error (.missingParameter primitive field)

/-- The operation of a family with the parameters given; parameters left out take the values
that they have for a primitive without any. -/
def operationOf (primitive : String) (family : Family) (p : ParameterDraft)
    (operands : List Shape) : Except ImportError Operation := do
  let first := operands.headD []
  let second := operands.tail.headD []
  match family with
  | .arith op => return .arith op
  | .neg => return .neg
  | .call f => return .call f
  | .indicator c => return .indicator c
  | .accumulate => return .accumulate
  | .matmul => return .contract (.matmul first.rank second.rank)
  | .contract => do
    let lhsContract ← needParameter primitive "lhs_contract" p.lhsContract
    let rhsContract ← needParameter primitive "rhs_contract" p.rhsContract
    return .contract ⟨lhsContract, rhsContract, p.lhsBatch.getD [], p.rhsBatch.getD []⟩
  | .reduceSum => return .reduceSum (p.axes.getD first.axes)
  | .broadcast => return .broadcast (← needParameter primitive "dims" p.dims)
  | .transpose => return .transpose (p.permutation.getD first.axes.reverse)
  | .reshape => return .reshape
  | .cast => return .cast (p.dtype.getD Recording.defaultDtype)

/-- The operation of a primitive with the parameters given. -/
def importOperation (primitive : String) (p : ParameterDraft) (operands : List Shape) :
    Except ImportError Operation :=
  match primitive? primitive with
  | none => .ok (.foreign primitive)
  | some spec =>
    if operands.length ≠ spec.arity then
      .error (.operandCount primitive spec.arity operands.length)
    else operationOf primitive spec.family p operands

/-- Whether an operation on the operands can have the shape stated. -/
def checkStatedShape (id : ValueId) (op : Operation) (operands : List Shape)
    (stated : Shape) : Except ImportError Unit :=
  let first := operands.headD []
  match op with
  | .broadcast dims => (first.checkBroadcast dims stated).mapError (.shape id)
  | .reshape => (first.checkReshape stated).mapError (.shape id)
  | .foreign _ => .ok ()
  | op =>
    match op.resultShape operands with
    | .error e => .error (.shape id e)
    | .ok inferred =>
      if inferred = stated then .ok ()
      else .error (.shapeMismatch id op.name inferred stated)

/-- The value of a draft, which is next in the graph. -/
def importValue (g : Graph) (draft : ValueDraft) : Except ImportError Value := do
  let id := draft.id
  if id ≠ g.size then throw (.outOfOrder id g.size)
  match draft with
  | .leaf _ shape => return ⟨.leaf, shape⟩
  | .literal _ x => return ⟨.literal x, []⟩
  | .op _ primitive operands shape parameters => do
    if let some bad := operands.find? (id ≤ ·) then throw (.undefinedOperand id bad)
    let shapes := operands.map g.shape
    let op ← importOperation primitive parameters shapes
    checkStatedShape id op shapes shape
    return ⟨.op op operands, shape⟩

/-- The graph of the values in order. -/
def importGraph (values : List ValueDraft) : Except ImportError Graph :=
  values.foldlM (fun g draft => return g.push (← importValue g draft)) Graph.empty

/-- Whether the arguments are inputs, each listed once; `seen` holds the values before. -/
def checkArguments (g : Graph) (seen : List ValueId) : List Argument → Except ImportError Unit
  | [] => .ok ()
  | a :: rest =>
    if !g.isLeaf a.value then .error (.argumentNotLeaf a.value)
    else if seen.contains a.value then .error (.argumentRepeated a.value)
    else checkArguments g (a.value :: seen) rest

/-- Whether every input is an argument. -/
def checkLeaves (g : Graph) (arguments : List Argument) : Except ImportError Unit :=
  match g.ids.find? fun v => g.isLeaf v && !arguments.any (·.value == v) with
  | some v => .error (.leafNotArgument v)
  | none => .ok ()

/-- Whether the tags speak of values of the graph. -/
def checkTags (g : Graph) (tags : List DerivativeTag) : Except ImportError Unit :=
  match tags.find? fun t => !(g.has t.primal && g.has t.value) with
  | some t => .error (.tagUnknown t)
  | none => .ok ()

/-- Whether there are outputs, all of them values of the graph. -/
def checkOutputs (g : Graph) (outputs : List ValueId) : Except ImportError Unit :=
  if outputs.isEmpty then .error .noOutputs
  else
    match outputs.find? (!g.has ·) with
    | some v => .error (.unknownOutput v)
    | none => .ok ()

/-- The bindings of drafts, collected in order. -/
def importBindings (g : Graph) (drafts : List BindingDraft) :
    Except ImportError (List Binding) :=
  drafts.foldlM (fun bindings b =>
    (addBinding g bindings b.value b.name b.dependsOn).mapError .binding) []

namespace Trace

/-- The trace of a draft. -/
def ofDraft (d : TraceDraft) : Except ImportError Trace := do
  let g ← importGraph d.values
  checkArguments g [] d.arguments
  checkLeaves g d.arguments
  checkTags g d.tags
  checkOutputs g d.outputs
  let bindings ← importBindings g d.bindings
  return ⟨d.name, g, d.arguments, bindings, d.tags, d.outputs⟩

/-- The trace of a document's text. -/
def ofText (text : String) : Except ImportError Trace := do
  let draft ← (decodeText TraceDraft.ofJson text).mapError .decode
  ofDraft draft

end Trace

end ArrayEquations
