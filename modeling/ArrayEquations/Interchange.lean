import ArrayEquations.Decimal
import ArrayEquations.Json
import ArrayEquations.Trace

/-!
# ArrayEquations — traces as documents

The document of a trace lists its values in order, each with its position. Parameters
of an operation that it does not need are left out, and so are dependencies that were
not stated and the mark of a derivative input on other arguments. A constant that is
not finite becomes null, which no reader takes for a constant.

## Main definitions

* `Trace.toJson` — the document of a trace.
* `Trace.compactText`, `Trace.prettyText` — its two forms as text.
-/

namespace ArrayEquations

/-- An argument in a document. -/
def Argument.toJson (a : Argument) : Json :=
  Json.ofFields <|
    [("value", .ofNat a.value), ("name", (a.name.map Json.ofString).getD .null)] ++
      if a.derivative then [("derivative", .bool true)] else []

/-- The parameters of an operation in a document; none if it has no parameters. -/
def Operation.parameters (op : Operation) : List (String × Json) :=
  match op with
  | .contract axes =>
    [ ("lhs_contract", .ofNats axes.lhsContract), ("rhs_contract", .ofNats axes.rhsContract),
      ("lhs_batch", .ofNats axes.lhsBatch), ("rhs_batch", .ofNats axes.rhsBatch) ]
  | .reduceSum axes => [("axes", .ofNats axes)]
  | .broadcast dims => [("dims", .ofNats dims)]
  | .transpose permutation => [("permutation", .ofNats permutation)]
  | .cast dtype => [("dtype", .ofString dtype)]
  | _ => []

/-- A constant in a document. -/
def literalJson (x : Float) : Json := ((documentNumeral? x).map Json.number).getD .null

/-- A value in a document, at its position. -/
def Value.toJson (v : Value) (id : ValueId) : Json :=
  Json.ofFields <|
    match v.content with
    | .leaf => [("kind", .ofString "leaf"), ("id", .ofNat id), ("shape", .ofNats v.shape)]
    | .literal x =>
      [("kind", .ofString "literal"), ("id", .ofNat id), ("value", literalJson x)]
    | .op op operands =>
      let parameters := op.parameters
      [ ("kind", .ofString "op"), ("id", .ofNat id), ("primitive", .ofString op.name),
        ("operands", .ofNats operands), ("shape", .ofNats v.shape) ] ++
        if parameters.isEmpty then [] else [("params", Json.ofFields parameters)]

/-- A binding in a document; its number is its position. -/
def Binding.toJson (b : Binding) : Json :=
  Json.ofFields <|
    [("name", .ofString b.name), ("value", .ofNat b.value)] ++
      match b.dependsOn with
      | some dependencies => [("depends_on", .ofNats dependencies)]
      | none => []

/-- A derivative tag in a document. -/
def DerivativeTag.toJson (t : DerivativeTag) : Json :=
  Json.ofFields
    [("kind", .ofString t.kind.name), ("primal", .ofNat t.primal), ("value", .ofNat t.value)]

namespace Trace

/-- The document of a trace. -/
def toJson (t : Trace) : Json :=
  Json.ofFields
    [ ("name", .ofString t.name),
      ("arguments", .ofList (t.arguments.map Argument.toJson)),
      ("values", .ofList (t.graph.toList.zipIdx.map fun (v, id) => v.toJson id)),
      ("bindings", .ofList (t.bindings.map Binding.toJson)),
      ("tags", .ofList (t.tags.map DerivativeTag.toJson)),
      ("outputs", .ofNats t.outputs) ]

/-- The document of a trace without blanks, the same for equal traces. -/
def compactText (t : Trace) : String := t.toJson.compact

/-- The document of a trace with a line for each item. -/
def prettyText (t : Trace) : String := t.toJson.pretty 0

end Trace

end ArrayEquations
