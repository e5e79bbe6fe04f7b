import ArrayEquations.Graph
import ArrayEquations.Proofs.RowMajor

/-!
# ArrayEquations — what a graph computes

The arrays of a graph, entry by entry, over any commutative ring. What the ring does not
provide is a parameter: the reading of constants, division, powers, the named functions
and the indicators, and whatever a foreign operation does.

* An elementwise operation reads its operands with the last axes aligned.
* An entry of a contraction or of a sum over axes is the sum over all operand positions
  that lead to it.
* A reshape keeps row-major numbers; a change of element type keeps the entries.

## Main definitions

* `Interpretation` — the parameters; `Tensor` — an array.
* `Operation.entry` — an entry of an operation's result.
* `Graph.entry` — an entry of a value, for given arrays at the inputs.
* `Graph.Extends` — a graph with more values.

## Main results

* `Graph.entry_of_op` — the entries of an operation are made from those of its operands.
* `Graph.Extends.entry_eq` — more values change no entry of the ones before.
-/

namespace ArrayEquations

/-- How entries are computed, beyond the operations of a ring. -/
structure Interpretation (R : Type*) where
  literal : Float → R
  div : R → R → R
  pow : R → R → R
  call : NamedFunction → R → R
  indicator : Comparison → R → R → R
  /-- An entry of a foreign operation, from its operands and the result's shape. -/
  foreign : String → List (Shape × (Position → R)) → Shape → Position → R

/-- An array: its shape and its entries. -/
structure Tensor (R : Type*) where
  shape : Shape
  entry : Position → R

/-- The entry that an operand contributes at a position of the result, the last axes aligned. -/
def Tensor.aligned {R : Type*} (a : Tensor R) (p : Position) : R :=
  a.entry (a.shape.align p)

/-- The position of a transposed operand: axis `permutation[k]` has the coordinate of axis
`k`. -/
def unpermute (permutation : List Nat) (p : Position) : Position :=
  Position.tabulate permutation.length fun axis => p.coord (permutation.idxOf axis)

/-- The positions of a sum's operand that are added up at a position of the result. -/
def summedPositions (axes : List Nat) (s : Shape) (p : Position) : Finset Position :=
  s.box.filter fun q => (s.axes.filter fun a => !axes.contains a).map q.coord = p

/-- The pairs of positions whose products a contraction adds up at a position of the
result. -/
def ContractionAxes.pairs (axes : ContractionAxes) (ls rs : Shape) (p : Position) :
    Finset (Position × Position) :=
  (ls.box ×ˢ rs.box).filter fun x =>
    axes.lhsContract.map x.1.coord = axes.rhsContract.map x.2.coord ∧
    axes.lhsBatch.map x.1.coord = axes.rhsBatch.map x.2.coord ∧
    axes.lhsBatch.map x.1.coord ++ (axes.lhsFree ls.rank).map x.1.coord ++
      (axes.rhsFree rs.rank).map x.2.coord = p

section Entries

variable {R : Type*} [CommRing R]

/-- Elementwise arithmetic on two entries. -/
def Interpretation.arith (I : Interpretation R) : Arith → R → R → R
  | .add, x, y => x + y
  | .sub, x, y => x - y
  | .mul, x, y => x * y
  | .div, x, y => I.div x y
  | .pow, x, y => I.pow x y

/-- An entry of an operation's result; zero for the wrong number of operands. -/
def Operation.entry (I : Interpretation R) :
    Operation → List (Tensor R) → Shape → Position → R
  | .arith op, [a, b], _, p => I.arith op (a.aligned p) (b.aligned p)
  | .neg, [a], _, p => -a.aligned p
  | .call f, [a], _, p => I.call f (a.aligned p)
  | .indicator c, [a, b], _, p => I.indicator c (a.aligned p) (b.aligned p)
  | .accumulate, [a, b], _, p => a.aligned p + b.aligned p
  | .contract axes, [a, b], _, p =>
    ∑ x ∈ axes.pairs a.shape b.shape p, a.entry x.1 * b.entry x.2
  | .reduceSum axes, [a], _, p => ∑ q ∈ summedPositions axes a.shape p, a.entry q
  | .broadcast dims, [a], _, p => a.entry (a.shape.project dims p)
  | .transpose permutation, [a], _, p => a.entry (unpermute permutation p)
  | .reshape, [a], out, p => a.entry (a.shape.reshaped out p)
  | .cast _, [a], _, p => a.entry p
  | .foreign name, operands, out, p =>
    I.foreign name (operands.map fun a => (a.shape, a.entry)) out p
  | _, _, _, _ => 0

namespace Graph

/-- An entry of a value. The inputs are given; an operation reads values before it only. -/
def entry (I : Interpretation R) (inputs : ValueId → Position → R) (g : Graph)
    (v : ValueId) (p : Position) : R :=
  match g.get? v with
  | none => 0
  | some ⟨.leaf, _⟩ => inputs v p
  | some ⟨.literal x, _⟩ => I.literal x
  | some ⟨.op op operands, out⟩ =>
    op.entry I (operands.map fun w =>
      if _ : w < v then ⟨g.shape w, entry I inputs g w⟩ else ⟨[], 0⟩) out p
termination_by v

/-- The array of a value. -/
def tensor (I : Interpretation R) (inputs : ValueId → Position → R) (g : Graph)
    (v : ValueId) : Tensor R :=
  ⟨g.shape v, g.entry I inputs v⟩

variable {I : Interpretation R} {inputs : ValueId → Position → R} {g : Graph}

theorem entry_of_leaf {v : ValueId} {s : Shape} (h : g.get? v = some ⟨.leaf, s⟩)
    (p : Position) : g.entry I inputs v p = inputs v p := by
  rw [entry, h]

theorem entry_of_literal {v : ValueId} {x : Float} {s : Shape}
    (h : g.get? v = some ⟨.literal x, s⟩) (p : Position) :
    g.entry I inputs v p = I.literal x := by
  rw [entry, h]

theorem shape_of_get? {v : ValueId} {value : Value} (h : g.get? v = some value) :
    g.shape v = value.shape := by
  rw [shape, h]
  rfl

theorem operands_of_get? {v : ValueId} {value : Value} (h : g.get? v = some value) :
    g.operands v = value.operands := by
  rw [operands, h]
  rfl

/-- An operation on values before it makes its entries from theirs. -/
theorem entry_of_op {v : ValueId} {op : Operation} {operands : List ValueId} {s : Shape}
    (h : g.get? v = some ⟨.op op operands, s⟩) (hBefore : ∀ w ∈ operands, w < v)
    (p : Position) :
    g.entry I inputs v p = op.entry I (operands.map (g.tensor I inputs)) s p := by
  have hOperands : operands.map (fun w =>
      if _ : w < v then (⟨g.shape w, g.entry I inputs w⟩ : Tensor R) else ⟨[], 0⟩) =
      operands.map (g.tensor I inputs) := by
    apply List.map_congr_left
    intro w hw
    rw [dif_pos (hBefore w hw), tensor]
  rw [entry, h]
  show op.entry I _ s p = _
  rw [hOperands]

end Graph

end Entries

/-! ## More values -/

namespace Graph

/-- The second graph has all values of the first one at their positions. -/
structure Extends (g g' : Graph) : Prop where
  size_le : g.size ≤ g'.size
  get?_eq : ∀ v < g.size, g'.get? v = g.get? v

theorem get?_eq_none {g : Graph} {v : ValueId} (h : g.size ≤ v) : g.get? v = none :=
  Array.getElem?_eq_none h

theorem lt_size_of_get? {g : Graph} {v : ValueId} {value : Value}
    (h : g.get? v = some value) : v < g.size := by
  by_contra hNot
  rw [get?_eq_none (Nat.le_of_not_lt hNot)] at h
  exact absurd h (by simp)

theorem lt_size_of_mem_operands {g : Graph} {v w : ValueId} (h : w ∈ g.operands v) :
    v < g.size := by
  by_contra hNot
  rw [operands, get?_eq_none (Nat.le_of_not_lt hNot)] at h
  exact absurd h List.not_mem_nil

theorem exists_get? {g : Graph} {v : ValueId} (h : v < g.size) :
    ∃ value, g.get? v = some value :=
  ⟨g.values[v], Array.getElem?_eq_getElem h⟩

theorem size_push (g : Graph) (v : Value) : (g.push v).size = g.size + 1 := Array.size_push ..

theorem get?_push_size (g : Graph) (v : Value) : (g.push v).get? g.size = some v :=
  Array.getElem?_push_size

theorem get?_push_lt {g : Graph} {v : ValueId} (value : Value) (h : v < g.size) :
    (g.push value).get? v = g.get? v := by
  rw [get?, push, Array.getElem?_push_lt h]
  exact (Array.getElem?_eq_getElem h).symm

namespace Extends

theorem refl (g : Graph) : g.Extends g := ⟨Nat.le_refl _, fun _ _ => rfl⟩

theorem trans {g₁ g₂ g₃ : Graph} (h₁ : g₁.Extends g₂) (h₂ : g₂.Extends g₃) :
    g₁.Extends g₃ := by
  refine ⟨Nat.le_trans h₁.size_le h₂.size_le, ?_⟩
  intro v hv
  rw [h₂.get?_eq v (Nat.lt_of_lt_of_le hv h₁.size_le), h₁.get?_eq v hv]

theorem push (g : Graph) (v : Value) : g.Extends (g.push v) := by
  refine ⟨by rw [size_push]; omega, ?_⟩
  intro w hw
  exact get?_push_lt v hw

theorem get?_of_some {g g' : Graph} (h : g.Extends g') {v : ValueId} {value : Value}
    (hGet : g.get? v = some value) : g'.get? v = some value := by
  rw [h.get?_eq v (lt_size_of_get? hGet), hGet]

theorem shape_eq {g g' : Graph} (h : g.Extends g') {v : ValueId} (hv : v < g.size) :
    g'.shape v = g.shape v := by
  rw [shape, shape, h.get?_eq v hv]

theorem literal?_eq {g g' : Graph} (h : g.Extends g') {v : ValueId} (hv : v < g.size) :
    g'.literal? v = g.literal? v := by
  rw [literal?, literal?, h.get?_eq v hv]

/-- More values change no entry of the ones before. -/
theorem entry_eq {R : Type*} [CommRing R] {I : Interpretation R}
    {inputs : ValueId → Position → R} {g g' : Graph} (h : g.Extends g') {v : ValueId}
    (hv : v < g.size) : g'.entry I inputs v = g.entry I inputs v := by
  induction v using Nat.strong_induction_on with
  | _ v ih =>
    funext p
    rw [entry, entry, h.get?_eq v hv]
    split
    · rfl
    · rfl
    · rfl
    · congr 1
      apply List.map_congr_left
      intro w _
      by_cases hw : w < v
      · have hSize : w < g.size := Nat.lt_trans hw hv
        rw [dif_pos hw, dif_pos hw, h.shape_eq hSize, ih w hw hSize]
      · rw [dif_neg hw, dif_neg hw]

end Extends

end Graph

end ArrayEquations
