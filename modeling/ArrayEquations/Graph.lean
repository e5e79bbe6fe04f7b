import ArrayEquations.Operation
import ArrayEquations.Decimal

/-!
# ArrayEquations — graphs of values

A graph lists the values of a computation in the order of their creation: inputs,
scalar constants, and operations on other values. A value is known by its position.

## Main definitions

* `ValueId` — a position in a graph.
* `Value` — an input, a constant or an operation, with the shape of its array.
* `Graph` — the values, `Graph.push` to add one and `Graph.get?` to read one.
* `Graph.Ordered` — operands come before the operations that use them.
* `Graph.consumers` — which operations use a value.
-/

namespace ArrayEquations

/-- The position of a value in its graph. -/
abbrev ValueId := Nat

/-- A value's position as it is written: `%7`. -/
def valueText (v : ValueId) : String := s!"%{v}"

/-- What a value is. -/
inductive Content where
  /-- An input of the function. -/
  | leaf
  /-- A scalar constant. -/
  | literal (x : Float)
  /-- An operation on other values. -/
  | op (op : Operation) (operands : List ValueId)
  deriving DecidableEq

/-- A value of a graph with the shape of its array. -/
structure Value where
  content : Content
  shape : Shape
  deriving DecidableEq

namespace Value

/-- The operation that makes the value, with its operands. -/
def op? (v : Value) : Option (Operation × List ValueId) :=
  match v.content with
  | .op op operands => some (op, operands)
  | _ => none

/-- The constant that the value is. -/
def literal? (v : Value) : Option Float :=
  match v.content with
  | .literal x => some x
  | _ => none

/-- Whether the value is an input. -/
def isLeaf (v : Value) : Bool :=
  match v.content with
  | .leaf => true
  | _ => false

/-- The operands of the value's operation; none for an input or a constant. -/
def operands (v : Value) : List ValueId :=
  match v.content with
  | .op _ operands => operands
  | _ => []

end Value

/-- The values of a computation in the order of their creation. -/
structure Graph where
  values : Array Value
  deriving DecidableEq

namespace Graph

/-- The graph without values. -/
def empty : Graph := ⟨#[]⟩

/-- The number of values. -/
def size (g : Graph) : Nat := g.values.size

/-- The graph with one more value, which gets the next position. -/
def push (g : Graph) (v : Value) : Graph := ⟨g.values.push v⟩

/-- The value at a position. -/
def get? (g : Graph) (v : ValueId) : Option Value := g.values[v]?

/-- Whether the graph has a value at a position. -/
def has (g : Graph) (v : ValueId) : Bool := v < g.size

/-- The shape of a value; a missing value counts as a scalar. -/
def shape (g : Graph) (v : ValueId) : Shape := ((g.get? v).map (·.shape)).getD []

/-- The operation that makes a value, with its operands. -/
def op? (g : Graph) (v : ValueId) : Option (Operation × List ValueId) :=
  (g.get? v).bind (·.op?)

/-- The constant that a value is. -/
def literal? (g : Graph) (v : ValueId) : Option Float := (g.get? v).bind (·.literal?)

/-- Whether a value is an input. -/
def isLeaf (g : Graph) (v : ValueId) : Bool := (g.get? v).any (·.isLeaf)

/-- The operands of a value's operation. -/
def operands (g : Graph) (v : ValueId) : List ValueId :=
  ((g.get? v).map (·.operands)).getD []

/-- The positions in order. -/
def ids (g : Graph) : List ValueId := List.range g.size

/-- The values in order. -/
def toList (g : Graph) : List Value := g.values.toList

/-- Operands come before the operations that use them. -/
def Ordered (g : Graph) : Prop := ∀ v, ∀ w ∈ g.operands v, w < v

/-- The operations that use a value, in order and each once. -/
def consumers (g : Graph) (v : ValueId) : List ValueId :=
  g.ids.filter fun w => (g.operands w).contains v

/-- The line that describes the value at a position. -/
def lineText (v : ValueId) (value : Value) : String :=
  match value.content with
  | .leaf => s!"{valueText v} = leaf {value.shape.text}\n"
  | .literal x => s!"{valueText v} = literal {plainText x}\n"
  | .op op operands =>
    let uses := String.join (operands.map fun w => " " ++ valueText w)
    s!"{valueText v} = {op.name}{uses} : {value.shape.text}\n"

/-- The graph as text, a line for each value. -/
def text (g : Graph) : String :=
  String.join (g.values.toList.zipIdx.map fun (value, v) => lineText v value)

end Graph

end ArrayEquations
