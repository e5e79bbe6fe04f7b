import ArrayEquations.Json.Decode
import ArrayEquations.Trace

/-!
# ArrayEquations — drafts of traces

A document of a trace, decoded field by field but not yet checked: positions may be
wrong, operands missing and parameters incomplete. Fields that a trace does not have are
passed over.

## Main definitions

* `TraceDraft` — a decoded document.
* `TraceDraft.ofJson` — the decoder.
-/

namespace ArrayEquations

/-- The parameters that an operation may have in a document. -/
structure ParameterDraft where
  lhsContract : Option (List Nat) := none
  rhsContract : Option (List Nat) := none
  lhsBatch : Option (List Nat) := none
  rhsBatch : Option (List Nat) := none
  axes : Option (List Nat) := none
  dims : Option (List Nat) := none
  permutation : Option (List Nat) := none
  dtype : Option String := none
  deriving DecidableEq, Repr

/-- A value of a document. -/
inductive ValueDraft where
  | leaf (id : Nat) (shape : Shape)
  | literal (id : Nat) (x : Float)
  | op (id : Nat) (primitive : String) (operands : List Nat) (shape : Shape)
    (parameters : ParameterDraft)
  deriving DecidableEq

/-- The position that a value of a document claims. -/
def ValueDraft.id : ValueDraft → Nat
  | .leaf id _ => id
  | .literal id _ => id
  | .op id _ _ _ _ => id

/-- A binding of a document. -/
structure BindingDraft where
  name : String
  value : Nat
  dependsOn : Option (List Nat)
  deriving DecidableEq, Repr

/-- A document of a trace. -/
structure TraceDraft where
  name : String
  arguments : List Argument
  values : List ValueDraft
  bindings : List BindingDraft
  tags : List DerivativeTag
  outputs : List Nat
  deriving DecidableEq

namespace TraceDraft

/-- A position in a graph: a natural number of 32 bits. -/
def decodeId (j : Json) : Except DecodeError Nat := j.asNatBelow (Nat.pow 2 32)

/-- Positions in a graph. -/
def decodeIds (j : Json) : Except DecodeError (List Nat) := j.asList decodeId

/-! ## Arguments, bindings and tags -/

/-- The fields of an argument that were met so far. -/
structure ArgumentFields where
  value : Option Nat := none
  name : Option (Option String) := none
  derivative : Option Bool := none

/-- Takes one field of an argument. -/
def ArgumentFields.take (f : ArgumentFields) (key : String) (j : Json) :
    Except DecodeError ArgumentFields :=
  match key with
  | "value" => return { f with value := ← Json.once key f.value (decodeId j) }
  | "name" => return { f with name := ← Json.once key f.name (j.asOption Json.asString) }
  | "derivative" => return { f with derivative := ← Json.once key f.derivative j.asBool }
  | _ => do
    j.ignore
    return f

/-- An argument. -/
def decodeArgument (j : Json) : Except DecodeError Argument := do
  let f ← j.decodeFields ArgumentFields.take {}
  let value ← Json.required "value" f.value
  return ⟨value, f.name.join, f.derivative.getD false⟩

/-- The fields of a binding that were met so far. -/
structure BindingFields where
  name : Option String := none
  value : Option Nat := none
  dependsOn : Option (Option (List Nat)) := none

/-- Takes one field of a binding. -/
def BindingFields.take (f : BindingFields) (key : String) (j : Json) :
    Except DecodeError BindingFields :=
  match key with
  | "name" => return { f with name := ← Json.once key f.name j.asString }
  | "value" => return { f with value := ← Json.once key f.value (decodeId j) }
  | "depends_on" =>
    return { f with dependsOn := ← Json.once key f.dependsOn (j.asOption decodeIds) }
  | _ => do
    j.ignore
    return f

/-- A binding. -/
def decodeBinding (j : Json) : Except DecodeError BindingDraft := do
  let f ← j.decodeFields BindingFields.take {}
  let name ← Json.required "name" f.name
  let value ← Json.required "value" f.value
  return ⟨name, value, f.dependsOn.join⟩

/-- The kind of derivative of a spelling. -/
def kindOfName (name : String) : Except DecodeError DerivativeKind :=
  match name with
  | "tangent" => .ok .tangent
  | "cotangent" => .ok .cotangent
  | _ => .error (.unknownVariant name)

/-- The kind of a derivative: its spelling, or an object with the spelling as its only key and
null as its value. -/
def decodeKind (j : Json) : Except DecodeError DerivativeKind :=
  match j with
  | .string (some name) => kindOfName name
  | .object ((some name, value) :: rest) closed => do
    let kind ← kindOfName name
    match value with
    | .null => if rest.isEmpty && closed then return kind else throw .malformed
    | value => throw value.mismatch
  | _ => .error .malformed

/-- The fields of a tag that were met so far. -/
structure TagFields where
  kind : Option DerivativeKind := none
  primal : Option Nat := none
  value : Option Nat := none

/-- Takes one field of a tag. -/
def TagFields.take (f : TagFields) (key : String) (j : Json) : Except DecodeError TagFields :=
  match key with
  | "kind" => return { f with kind := ← Json.once key f.kind (decodeKind j) }
  | "primal" => return { f with primal := ← Json.once key f.primal (decodeId j) }
  | "value" => return { f with value := ← Json.once key f.value (decodeId j) }
  | _ => do
    j.ignore
    return f

/-- A derivative tag. -/
def decodeTag (j : Json) : Except DecodeError DerivativeTag := do
  let f ← j.decodeFields TagFields.take {}
  let kind ← Json.required "kind" f.kind
  let primal ← Json.required "primal" f.primal
  let value ← Json.required "value" f.value
  return ⟨kind, primal, value⟩

/-! ## Values -/

/-- The parameters that were met so far. -/
structure ParameterFields where
  lhsContract : Option (Option (List Nat)) := none
  rhsContract : Option (Option (List Nat)) := none
  lhsBatch : Option (Option (List Nat)) := none
  rhsBatch : Option (Option (List Nat)) := none
  axes : Option (Option (List Nat)) := none
  dims : Option (Option (List Nat)) := none
  permutation : Option (Option (List Nat)) := none
  dtype : Option (Option String) := none

/-- Takes one parameter. -/
def ParameterFields.take (f : ParameterFields) (key : String) (j : Json) :
    Except DecodeError ParameterFields :=
  let axes (previous : Option (Option (List Nat))) :=
    Json.once key previous (j.asOption Json.asNats)
  match key with
  | "lhs_contract" => return { f with lhsContract := ← axes f.lhsContract }
  | "rhs_contract" => return { f with rhsContract := ← axes f.rhsContract }
  | "lhs_batch" => return { f with lhsBatch := ← axes f.lhsBatch }
  | "rhs_batch" => return { f with rhsBatch := ← axes f.rhsBatch }
  | "axes" => return { f with axes := ← axes f.axes }
  | "dims" => return { f with dims := ← axes f.dims }
  | "permutation" => return { f with permutation := ← axes f.permutation }
  | "dtype" =>
    return { f with dtype := ← Json.once key f.dtype (j.asOption Json.asString) }
  | _ => do
    j.ignore
    return f

/-- The parameters of an operation. -/
def decodeParameters (j : Json) : Except DecodeError ParameterDraft := do
  let f ← j.decodeFields ParameterFields.take {}
  return {
    lhsContract := f.lhsContract.join
    rhsContract := f.rhsContract.join
    lhsBatch := f.lhsBatch.join
    rhsBatch := f.rhsBatch.join
    axes := f.axes.join
    dims := f.dims.join
    permutation := f.permutation.join
    dtype := f.dtype.join }

/-- The kinds of value in a document. -/
inductive ValueKind where
  | leaf
  | literal
  | op
  deriving DecidableEq, Repr

/-- The kind of a value. -/
def decodeValueKind (j : Json) : Except DecodeError ValueKind := do
  match ← j.asString with
  | "leaf" => return .leaf
  | "literal" => return .literal
  | "op" => return .op
  | name => throw (.unknownVariant name)

/-- Takes one field of a value: its kind at once, any other field as it is, provided that it
is sound. Its lists and objects may be nested 124 deep, which with those around them makes
127. -/
def takeValueField (found : Option ValueKind × List (Option String × Json)) (key : String)
    (j : Json) : Except DecodeError (Option ValueKind × List (Option String × Json)) := do
  let (kind, fields) := found
  if key == "kind" then
    let kind ← Json.once key kind (decodeValueKind j)
    return (kind, fields)
  else if j.isSound 124 then return (kind, fields ++ [(some key, j)])
  else throw .malformed

/-- The fields of a value, other than its kind, that were met so far. -/
structure ValueFields where
  id : Option Nat := none
  shape : Option Shape := none
  value : Option Float := none
  primitive : Option String := none
  operands : Option (List Nat) := none
  params : Option ParameterDraft := none

/-- Takes one field of an input. -/
def ValueFields.takeLeaf (f : ValueFields) (key : String) (j : Json) :
    Except DecodeError ValueFields :=
  match key with
  | "id" => return { f with id := ← Json.once key f.id (decodeId j) }
  | "shape" => return { f with shape := ← Json.once key f.shape j.asNats }
  | _ => return f

/-- Takes one field of a constant. -/
def ValueFields.takeLiteral (f : ValueFields) (key : String) (j : Json) :
    Except DecodeError ValueFields :=
  match key with
  | "id" => return { f with id := ← Json.once key f.id (decodeId j) }
  | "value" => return { f with value := ← Json.once key f.value j.asFloat }
  | _ => return f

/-- Takes one field of an operation. -/
def ValueFields.takeOp (f : ValueFields) (key : String) (j : Json) :
    Except DecodeError ValueFields :=
  match key with
  | "primitive" => return { f with primitive := ← Json.once key f.primitive j.asString }
  | "operands" => return { f with operands := ← Json.once key f.operands (decodeIds j) }
  | "params" => return { f with params := ← Json.once key f.params (decodeParameters j) }
  | key => f.takeLeaf key j

/-- A value: first its kind is found among all of its fields, then the fields of that kind are
decoded in order. -/
def decodeValue (j : Json) : Except DecodeError ValueDraft := do
  let (kind, fields) ← j.decodeFields takeValueField (none, [])
  let kind ← Json.required "kind" kind
  let rest := Json.object fields true
  match kind with
  | .leaf => do
    let f ← rest.decodeFields ValueFields.takeLeaf {}
    let id ← Json.required "id" f.id
    let shape ← Json.required "shape" f.shape
    return .leaf id shape
  | .literal => do
    let f ← rest.decodeFields ValueFields.takeLiteral {}
    let id ← Json.required "id" f.id
    let value ← Json.required "value" f.value
    return .literal id value
  | .op => do
    let f ← rest.decodeFields ValueFields.takeOp {}
    let id ← Json.required "id" f.id
    let primitive ← Json.required "primitive" f.primitive
    let operands ← Json.required "operands" f.operands
    let shape ← Json.required "shape" f.shape
    return .op id primitive operands shape (f.params.getD {})

/-! ## Traces -/

/-- The fields of a trace that were met so far. -/
structure TraceFields where
  name : Option String := none
  arguments : Option (List Argument) := none
  values : Option (List ValueDraft) := none
  bindings : Option (List BindingDraft) := none
  tags : Option (List DerivativeTag) := none
  outputs : Option (List Nat) := none

/-- Takes one field of a trace. -/
def TraceFields.take (f : TraceFields) (key : String) (j : Json) :
    Except DecodeError TraceFields :=
  match key with
  | "name" => return { f with name := ← Json.once key f.name j.asString }
  | "arguments" =>
    return { f with arguments := ← Json.once key f.arguments (j.asList decodeArgument) }
  | "values" => return { f with values := ← Json.once key f.values (j.asList decodeValue) }
  | "bindings" =>
    return { f with bindings := ← Json.once key f.bindings (j.asList decodeBinding) }
  | "tags" => return { f with tags := ← Json.once key f.tags (j.asList decodeTag) }
  | "outputs" => return { f with outputs := ← Json.once key f.outputs (decodeIds j) }
  | _ => do
    j.ignore
    return f

/-- A trace. -/
def ofJson (j : Json) : Except DecodeError TraceDraft := do
  let f ← j.decodeFields TraceFields.take {}
  let name ← Json.required "name" f.name
  let arguments ← Json.required "arguments" f.arguments
  let values ← Json.required "values" f.values
  let outputs ← Json.required "outputs" f.outputs
  return ⟨name, arguments, values, f.bindings.getD [], f.tags.getD [], outputs⟩

end TraceDraft

end ArrayEquations
