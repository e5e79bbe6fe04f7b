import ArrayEquations.Proofs.ContractionPairs
import ArrayEquations.Proofs.Permutation
import ArrayEquations.Proofs.WellFormed
import Mathlib.Algebra.Field.Basic
import Mathlib.Tactic.Ring

/-!
# ArrayEquations — tangents and cotangents of an operation

A tangent of an operation's result is a sum of parts, one for each operand, and each part
is linear in that operand's tangent. Reading the part's matrix the other way round takes a
cotangent of the result to a cotangent of the operand.

The slopes are those that a derivative records: a power with a constant exponent has a
constant factor, and the constants one and two are read as any other constant.

## Main definitions

* `Operation.slots` — the operands in which an operation has a derivative.
* `Operation.differential` — the part of a tangent that belongs to one operand.
* `Operation.pullback` — the cotangent of an operand.
* `Graph.recordedTangent` — the tangent of a value by the recorded slopes.
* `directionOf` — tangents at the chosen arguments only.

## Main results

* `Operation.differential_eq_sum` — a part is linear, entry by entry.
* `Operation.pairing_pullback` — the cotangent of an operand pairs with its tangent as the
  cotangent of the result pairs with the part.
-/

namespace ArrayEquations

variable {K : Type*} [Field K]

/-! ## Slopes -/

namespace Interpretation

/-- The slope of a power in its base; the exponent may be a known constant. -/
def powerSlope (I : Interpretation K) (exponent : Option Float) (a b : K) : K :=
  match exponent with
  | some c => I.literal c * if c - 1 == 1 then a else I.pow a (I.literal (c - 1))
  | none => b * I.pow a (b - I.literal 1)

/-- The slope of arithmetic in its left operand. -/
def lhsSlope (I : Interpretation K) (exponent : Option Float) : Arith → K → K → K
  | .add, _, _ => 1
  | .sub, _, _ => 1
  | .mul, _, b => b
  | .div, _, b => 1 / b
  | .pow, a, b => I.powerSlope exponent a b

/-- The slope of arithmetic in its right operand. -/
def rhsSlope (I : Interpretation K) : Arith → K → K → K
  | .add, _, _ => 1
  | .sub, _, _ => -1
  | .mul, a, _ => a
  | .div, a, b => -(a / I.pow b (I.literal 2))
  | .pow, a, b => I.pow a b * I.call .log a

/-- The slope of a named function. -/
def callSlope (I : Interpretation K) : NamedFunction → K → K
  | .relu, a => I.indicator .gt a (I.literal 0)
  | .exp, a => I.call .exp a
  | .log, a => 1 / a
  | .sin, a => I.call .cos a
  | .cos, a => -I.call .sin a
  | .tanh, a => I.literal 1 - I.pow (I.call .tanh a) (I.literal 2)
  | .sqrt, a => 1 / (I.literal 2 * I.call .sqrt a)

end Interpretation

/-! ## Tangents -/

namespace Operation

/-- The operands in which an operation has a derivative. -/
def slots : Operation → List Nat
  | .arith _ | .accumulate | .contract _ => [0, 1]
  | .indicator _ | .foreign _ => []
  | _ => [0]

/-- The part of a tangent of the result that belongs to the operand at a slot, whose tangent
is `t`. -/
def differential (I : Interpretation K) (exponent : Option Float) :
    Operation → List (Tensor K) → Nat → (Position → K) → Shape → Position → K
  | .arith op, [a, b], 0, t, _, p =>
    I.lhsSlope exponent op (a.aligned p) (b.aligned p) * t (a.shape.align p)
  | .arith op, [a, b], 1, t, _, p =>
    I.rhsSlope op (a.aligned p) (b.aligned p) * t (b.shape.align p)
  | .accumulate, [a, _], 0, t, _, p => 1 * t (a.shape.align p)
  | .accumulate, [_, b], 1, t, _, p => 1 * t (b.shape.align p)
  | .neg, [a], 0, t, _, p => -1 * t (a.shape.align p)
  | .call f, [a], 0, t, _, p => I.callSlope f (a.aligned p) * t (a.shape.align p)
  | .contract axes, [a, b], 0, t, _, p =>
    ∑ x ∈ axes.pairs a.shape b.shape p, b.entry x.2 * t x.1
  | .contract axes, [a, b], 1, t, _, p =>
    ∑ x ∈ axes.pairs a.shape b.shape p, a.entry x.1 * t x.2
  | .reduceSum axes, [a], 0, t, _, p => ∑ q ∈ summedPositions axes a.shape p, 1 * t q
  | .broadcast dims, [a], 0, t, _, p => 1 * t (a.shape.project dims p)
  | .transpose permutation, [_], 0, t, _, p => 1 * t (unpermute permutation p)
  | .reshape, [a], 0, t, out, p => 1 * t (a.shape.reshaped out p)
  | .cast _, [_], 0, t, _, p => 1 * t p
  | _, _, _, _, _, _ => 0

/-- The array that is one at a position and zero elsewhere. -/
def unitArray (q : Position) : Position → K := fun r => if r = q then 1 else 0

/-- The cotangent of the operand at a slot, from the cotangent `ct` of the result: each entry of
the result hands on its own, times the slope. -/
def pullback (I : Interpretation K) (exponent : Option Float) (op : Operation)
    (operands : List (Tensor K)) (slot : Nat) (out : Shape) (ct : Position → K)
    (q : Position) : K :=
  ∑ p ∈ out.box, ct p * op.differential I exponent operands slot (unitArray q) out p

/-! ## Linearity -/

theorem unitArray_self (q : Position) : (unitArray q : Position → K) q = 1 := if_pos rfl

theorem unitArray_of_ne {q r : Position} (h : r ≠ q) : (unitArray q : Position → K) r = 0 :=
  if_neg h

/-- A sum of weighted reads of a unit array goes over the reads of its one position. -/
theorem sum_unitArray {ι : Type*} {reads : Finset ι} (w : ι → K) (position : ι → Position)
    (q : Position) :
    ∑ i ∈ reads, w i * unitArray q (position i) = ∑ i ∈ reads with position i = q, w i := by
  rw [Finset.sum_filter]
  apply Finset.sum_congr rfl
  intro i _
  by_cases h : position i = q
  · rw [if_pos h, h, unitArray_self, mul_one]
  · rw [if_neg h, unitArray_of_ne h, mul_zero]

/-- Weighted entries of an array are those of its unit arrays, added up. -/
private theorem weighted_eq_sum {ι : Type*} {s : Shape} {reads : Finset ι} {w : ι → K}
    {position : ι → Position} (hBox : ∀ i ∈ reads, position i ∈ s.box) (t : Position → K) :
    ∑ i ∈ reads, w i * t (position i) =
      ∑ q ∈ s.box, t q * ∑ i ∈ reads, w i * unitArray q (position i) := by
  have hRead : ∀ i ∈ reads, w i * t (position i) =
      ∑ q ∈ s.box, t q * (w i * unitArray q (position i)) := by
    intro i hi
    rw [Finset.sum_eq_single (position i)]
    · rw [unitArray_self]
      ring
    · intro q _ hq
      rw [unitArray_of_ne hq.symm, mul_zero, mul_zero]
    · intro hNot
      exact absurd (hBox i hi) hNot
  rw [Finset.sum_congr rfl hRead, Finset.sum_comm]
  simp only [Finset.mul_sum]

private theorem read_eq_sum {s : Shape} {w : K} {r : Position} (hr : r ∈ s.box)
    (t : Position → K) : w * t r = ∑ q ∈ s.box, t q * (w * unitArray q r) := by
  have h := @weighted_eq_sum K _ Unit s {()} (fun _ => w) (fun _ => r) (fun _ _ => hr) t
  simpa only [Finset.sum_singleton] using h

/-- **A part of a tangent is linear in the operand's tangent.** -/
theorem differential_eq_sum {I : Interpretation K} {exponent : Option Float} {op : Operation}
    {operands : List (Tensor K)} {out : Shape}
    (hFits : op.Fits (operands.map (·.shape)) out) {slot : Nat} {p : Position}
    (hp : p ∈ out.box) (t : Position → K) :
    op.differential I exponent operands slot t out p =
      ∑ q ∈ Shape.box ((operands.map (·.shape)).getD slot []),
        t q * op.differential I exponent operands slot (unitArray q) out p := by
  -- An entry of the tangent is read once, with a factor, or several are added up. There is
  -- nothing in slots beyond the operands.
  generalize hShapes : operands.map (·.shape) = shapes at hFits
  cases hFits with
  | arith hBroadcast =>
    obtain ⟨a, b, rfl, rfl, rfl⟩ := eq_pair_of_map hShapes
    obtain ⟨ha, hb⟩ := Shape.below_of_broadcast hBroadcast
    rcases slot with _ | _ | slot
    · exact read_eq_sum (Shape.align_mem_box ha hp) t
    · exact read_eq_sum (Shape.align_mem_box hb hp) t
    · simp [differential]
  | accumulate hBroadcast =>
    obtain ⟨a, b, rfl, rfl, rfl⟩ := eq_pair_of_map hShapes
    obtain ⟨ha, hb⟩ := Shape.below_of_broadcast hBroadcast
    rcases slot with _ | _ | slot
    · exact read_eq_sum (Shape.align_mem_box ha hp) t
    · exact read_eq_sum (Shape.align_mem_box hb hp) t
    · simp [differential]
  | contract hPairable =>
    obtain ⟨a, b, rfl, rfl, rfl⟩ := eq_pair_of_map hShapes
    rcases slot with _ | _ | slot
    · apply weighted_eq_sum
      intro x hx
      exact (ContractionAxes.mem_pairs.mp hx).1.1
    · apply weighted_eq_sum
      intro x hx
      exact (ContractionAxes.mem_pairs.mp hx).1.2
    · simp [differential]
  | reduceSum hLt hNodup =>
    obtain ⟨a, rfl, rfl⟩ := eq_singleton_of_map hShapes
    rcases slot with _ | slot
    · apply weighted_eq_sum
      intro q hq
      exact (Finset.mem_filter.mp hq).1
    · simp [differential]
  | neg =>
    obtain ⟨a, rfl, rfl⟩ := eq_singleton_of_map hShapes
    rcases slot with _ | slot
    · exact read_eq_sum (Shape.align_mem_box (Shape.Below.refl _) hp) t
    · simp [differential]
  | call =>
    obtain ⟨a, rfl, rfl⟩ := eq_singleton_of_map hShapes
    rcases slot with _ | slot
    · exact read_eq_sum (Shape.align_mem_box (Shape.Below.refl _) hp) t
    · simp [differential]
  | broadcast hStretches =>
    obtain ⟨a, rfl, rfl⟩ := eq_singleton_of_map hShapes
    rcases slot with _ | slot
    · exact read_eq_sum (Shape.project_mem_box hStretches hp) t
    · simp [differential]
  | transpose hLength hLt hNodup =>
    obtain ⟨a, rfl, rfl⟩ := eq_singleton_of_map hShapes
    rcases slot with _ | slot
    · exact read_eq_sum (unpermute_mem_box ⟨hLength ▸ hLt, hNodup⟩ hLength hp) t
    · simp [differential]
  | reshape hSize =>
    obtain ⟨a, rfl, rfl⟩ := eq_singleton_of_map hShapes
    rcases slot with _ | slot
    · exact read_eq_sum (Shape.reshaped_mem_box hSize hp) t
    · simp [differential]
  | cast =>
    obtain ⟨a, rfl, rfl⟩ := eq_singleton_of_map hShapes
    rcases slot with _ | slot
    · exact read_eq_sum hp t
    · simp [differential]
  | indicator => simp [differential]
  | foreign => simp [differential]

/-- Only the entries of an operand's tangent matter. -/
theorem differential_congr {I : Interpretation K} {exponent : Option Float} {op : Operation}
    {operands : List (Tensor K)} {out : Shape}
    (hFits : op.Fits (operands.map (·.shape)) out) {slot : Nat} {p : Position}
    (hp : p ∈ out.box) {t t' : Position → K}
    (h : ∀ q ∈ Shape.box ((operands.map (·.shape)).getD slot []), t q = t' q) :
    op.differential I exponent operands slot t out p =
      op.differential I exponent operands slot t' out p := by
  rw [differential_eq_sum hFits hp, differential_eq_sum hFits hp t']
  exact Finset.sum_congr rfl fun q hq => by rw [h q hq]

/-- No tangent of an operand, no part of a tangent of the result. -/
theorem differential_eq_zero {I : Interpretation K} {exponent : Option Float} {op : Operation}
    {operands : List (Tensor K)} {out : Shape}
    (hFits : op.Fits (operands.map (·.shape)) out) {slot : Nat} {p : Position}
    (hp : p ∈ out.box) {t : Position → K}
    (h : ∀ q ∈ Shape.box ((operands.map (·.shape)).getD slot []), t q = 0) :
    op.differential I exponent operands slot t out p = 0 := by
  rw [differential_eq_sum hFits hp]
  exact Finset.sum_eq_zero fun q hq => by rw [h q hq, zero_mul]

/-- **The cotangent of an operand pairs with its tangent as the cotangent of the result pairs
with the part of the tangent that belongs to the operand.** -/
theorem pairing_pullback {I : Interpretation K} {exponent : Option Float} {op : Operation}
    {operands : List (Tensor K)} {out : Shape}
    (hFits : op.Fits (operands.map (·.shape)) out) (slot : Nat) (ct t : Position → K) :
    ∑ q ∈ Shape.box ((operands.map (·.shape)).getD slot []),
        op.pullback I exponent operands slot out ct q * t q =
      ∑ p ∈ out.box, ct p * op.differential I exponent operands slot t out p := by
  have hEntry : ∀ p ∈ out.box, ct p * op.differential I exponent operands slot t out p =
      ∑ q ∈ Shape.box ((operands.map (·.shape)).getD slot []),
        ct p * op.differential I exponent operands slot (unitArray q) out p * t q := by
    intro p hp
    rw [differential_eq_sum hFits hp, Finset.mul_sum]
    exact Finset.sum_congr rfl fun q _ => by ring
  rw [Finset.sum_congr rfl hEntry, Finset.sum_comm]
  simp only [pullback, Finset.sum_mul]

theorem lt_length_of_mem_slots {op : Operation} {shapes : List Shape} {out : Shape}
    (hFits : op.Fits shapes out) {slot : Nat} (hSlot : slot ∈ op.slots) :
    slot < shapes.length := by
  cases hFits <;> simp [slots] at hSlot <;> simp <;> omega

end Operation

/-! ## Graphs -/

namespace Graph

/-- The part of a tangent at an operation of the graph that belongs to one operand. -/
def part (I : Interpretation K) (inputs : ValueId → Position → K) (g : Graph) (op : Operation)
    (operands : List ValueId) (slot : Nat) (t : Position → K) (out : Shape) : Position → K :=
  op.differential I (g.literal? (operands.getD 1 0)) (operands.map (g.tensor I inputs)) slot t out

/-- The cotangent that an operation of the graph hands to one operand. -/
def pulledBack (I : Interpretation K) (inputs : ValueId → Position → K) (g : Graph) (op : Operation)
    (operands : List ValueId) (slot : Nat) (out : Shape) (ct : Position → K) : Position → K :=
  op.pullback I (g.literal? (operands.getD 1 0)) (operands.map (g.tensor I inputs)) slot out ct

/-- The tangent of a value by the recorded slopes, from tangents at the inputs. -/
def recordedTangent (I : Interpretation K) (inputs tangents : ValueId → Position → K) (g : Graph)
    (v : ValueId) (p : Position) : K :=
  match g.get? v with
  | none => 0
  | some ⟨.leaf, _⟩ => tangents v p
  | some ⟨.literal _, _⟩ => 0
  | some ⟨.op op operands, out⟩ =>
    (op.slots.map fun slot => g.part I inputs op operands slot
      (if _ : operands.getD slot 0 < v then
        recordedTangent I inputs tangents g (operands.getD slot 0) else 0) out p).sum
termination_by v

variable {I : Interpretation K} {inputs tangents : ValueId → Position → K} {g : Graph}

theorem recordedTangent_of_leaf {v : ValueId} {s : Shape} (h : g.get? v = some ⟨.leaf, s⟩)
    (p : Position) : g.recordedTangent I inputs tangents v p = tangents v p := by
  rw [recordedTangent, h]

theorem recordedTangent_of_literal {v : ValueId} {x : Float} {s : Shape}
    (h : g.get? v = some ⟨.literal x, s⟩) (p : Position) :
    g.recordedTangent I inputs tangents v p = 0 := by
  rw [recordedTangent, h]

/-- The operand at a slot is one of the operands. -/
theorem getD_mem_of_mem_slots {op : Operation} {operands : List ValueId} {out : Shape}
    (hFits : op.Fits (operands.map g.shape) out) {slot : Nat} (hSlot : slot ∈ op.slots) :
    operands.getD slot 0 ∈ operands ∧
      (operands.map g.shape).getD slot [] = g.shape (operands.getD slot 0) := by
  have hLength : slot < operands.length := by
    simpa using Operation.lt_length_of_mem_slots hFits hSlot
  constructor <;> simp [List.getD, hLength]

theorem recordedTangent_of_op (hg : g.WellFormed) {v : ValueId} {op : Operation}
    {operands : List ValueId} {s : Shape} (h : g.get? v = some ⟨.op op operands, s⟩)
    (p : Position) :
    g.recordedTangent I inputs tangents v p =
      (op.slots.map fun slot => g.part I inputs op operands slot
        (g.recordedTangent I inputs tangents (operands.getD slot 0)) s p).sum := by
  have hFits := hg.fits h
  rw [recordedTangent, h]
  show List.sum _ = _
  congr 1
  apply List.map_congr_left
  intro slot hSlot
  have hMem := (getD_mem_of_mem_slots hFits hSlot).1
  rw [dif_pos (hg.before h _ hMem)]

theorem part_congr {op : Operation} {operands : List ValueId} {out : Shape}
    (hFits : op.Fits (operands.map g.shape) out) {slot : Nat} (hSlot : slot ∈ op.slots)
    {p : Position} (hp : p ∈ out.box) {t t' : Position → K}
    (h : ∀ q ∈ (g.shape (operands.getD slot 0)).box, t q = t' q) :
    g.part I inputs op operands slot t out p = g.part I inputs op operands slot t' out p := by
  apply Operation.differential_congr (fits_tensors I inputs hFits) hp
  rwa [map_shape_tensor, (getD_mem_of_mem_slots hFits hSlot).2]

theorem part_eq_zero {op : Operation} {operands : List ValueId} {out : Shape}
    (hFits : op.Fits (operands.map g.shape) out) {slot : Nat} (hSlot : slot ∈ op.slots)
    {p : Position} (hp : p ∈ out.box) {t : Position → K}
    (h : ∀ q ∈ (g.shape (operands.getD slot 0)).box, t q = 0) :
    g.part I inputs op operands slot t out p = 0 := by
  apply Operation.differential_eq_zero (fits_tensors I inputs hFits) hp
  rwa [map_shape_tensor, (getD_mem_of_mem_slots hFits hSlot).2]

/-- Operands without a tangent give a result without one. -/
theorem recordedTangent_eq_zero (hg : g.WellFormed) {v : ValueId} {op : Operation}
    {operands : List ValueId} {s : Shape} (h : g.get? v = some ⟨.op op operands, s⟩)
    (hOperands : ∀ w ∈ operands, ∀ q ∈ (g.shape w).box,
      g.recordedTangent I inputs tangents w q = 0)
    {p : Position} (hp : p ∈ s.box) : g.recordedTangent I inputs tangents v p = 0 := by
  have hFits := hg.fits h
  rw [recordedTangent_of_op hg h]
  apply List.sum_eq_zero
  intro x hx
  obtain ⟨slot, hSlot, rfl⟩ := List.mem_map.mp hx
  exact part_eq_zero hFits hSlot hp (hOperands _ (getD_mem_of_mem_slots hFits hSlot).1)

end Graph

/-- The tangents given at the chosen arguments, and zero at all others. -/
def directionOf (wrt : List ValueId) (tangents : ValueId → Position → K) :
    ValueId → Position → K :=
  fun v => if v ∈ wrt then tangents v else 0

end ArrayEquations
