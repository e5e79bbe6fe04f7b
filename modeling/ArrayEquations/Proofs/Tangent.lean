import ArrayEquations.Proofs.Differential
import Mathlib.Algebra.DualNumber
import Mathlib.Tactic.FieldSimp

/-!
# ArrayEquations — the derivative of a graph

The derivative is what the graph computes on dual numbers: each input gets a tangent, the
operations follow the textbook rules, and the tangent of a value is the second part of its
entries. The first parts are the entries over the field.

Exact arithmetic is what ties the recorded slopes to the textbook ones: constants mean the
numbers they are written as, and so does an exponent lowered by one.

## Main definitions

* `Interpretation.dual` — the textbook rules on dual numbers.
* `Graph.tangent` — the derivative of a value in the direction of given tangents.
* `Interpretation.Exact`, `Graph.ExactExponents` — exact arithmetic.

## Main results

* `Graph.tangent_eq_recordedTangent` — with exact arithmetic the recorded slopes give the
  derivative.
-/

namespace ArrayEquations

open TrivSqZeroExt

variable {K : Type*} [Field K]

/-- A number together with its tangent. -/
def withTangent (x t : K) : DualNumber K := inl x + inr t

@[simp] theorem fst_withTangent (x t : K) : (withTangent x t).fst = x := by
  simp [withTangent]

@[simp] theorem snd_withTangent (x t : K) : (withTangent x t).snd = t := by
  simp [withTangent]

namespace Interpretation

/-- The textbook derivative of a named function. -/
def derivative (I : Interpretation K) : NamedFunction → K → K
  | .relu, a => I.indicator .gt a 0
  | .exp, a => I.call .exp a
  | .log, a => 1 / a
  | .sin, a => I.call .cos a
  | .cos, a => -I.call .sin a
  | .tanh, a => 1 - I.call .tanh a * I.call .tanh a
  | .sqrt, a => 1 / (2 * I.call .sqrt a)

/-- The textbook rules on dual numbers. -/
def dual (I : Interpretation K) : Interpretation (DualNumber K) where
  literal x := withTangent (I.literal x) 0
  div a b := withTangent (I.div a.fst b.fst)
    (a.snd / b.fst - a.fst * b.snd / (b.fst * b.fst))
  pow a b := withTangent (I.pow a.fst b.fst)
    (b.fst * I.pow a.fst (b.fst - 1) * a.snd +
      I.pow a.fst b.fst * I.call .log a.fst * b.snd)
  call f a := withTangent (I.call f a.fst) (I.derivative f a.fst * a.snd)
  indicator c a b := withTangent (I.indicator c a.fst b.fst) 0
  foreign name operands out p := withTangent
    (I.foreign name (operands.map fun x => (x.1, fun q => (x.2 q).fst)) out p) 0

/-- Exact arithmetic: constants mean the numbers that the rules of differentiation take them
for, division is that of the field, and the first two powers are products. -/
structure Exact (I : Interpretation K) : Prop where
  literal_zero : I.literal 0 = 0
  literal_one : ∀ x, (x == 1) = true → I.literal x = 1
  literal_two : I.literal 2 = 2
  div_eq : ∀ a b, I.div a b = a / b
  pow_one : ∀ a, I.pow a 1 = a
  pow_two : ∀ a, I.pow a 2 = a * a

/-- The constant, lowered by one, means its number lowered by one. -/
def ExactExponent (I : Interpretation K) (c : Float) : Prop :=
  I.literal (c - 1) = I.literal c - 1

namespace Exact

variable {I : Interpretation K}

/-- With exact arithmetic the recorded slopes are the textbook ones. -/
theorem callSlope_eq (h : I.Exact) (f : NamedFunction) (a : K) :
    I.callSlope f a = I.derivative f a := by
  cases f with
  | relu => rw [callSlope, derivative, h.literal_zero]
  | tanh =>
    rw [callSlope, derivative, h.literal_one 1 (by decide), h.literal_two, h.pow_two]
  | sqrt => rw [callSlope, derivative, h.literal_two]
  | exp => rfl
  | log => rfl
  | sin => rfl
  | cos => rfl

theorem powerSlope_eq (h : I.Exact) {exponent : Option Float} {a b : K}
    (hExponent : ∀ c ∈ exponent, b = I.literal c ∧ I.ExactExponent c) :
    I.powerSlope exponent a b = b * I.pow a (b - 1) := by
  unfold powerSlope
  split
  · rename_i c
    obtain ⟨rfl, hLowered⟩ := hExponent c rfl
    congr 1
    rw [← show I.literal (c - 1) = I.literal c - 1 from hLowered]
    split
    · rename_i hOne
      rw [h.literal_one _ hOne, h.pow_one]
    · rfl
  · rw [h.literal_one 1 (by decide)]

theorem snd_arith (h : I.Exact) {exponent : Option Float} (op : Arith) {x y : DualNumber K}
    (hExponent : op = .pow → ∀ c ∈ exponent, y.fst = I.literal c ∧ I.ExactExponent c) :
    (I.dual.arith op x y).snd =
      I.lhsSlope exponent op x.fst y.fst * x.snd + I.rhsSlope op x.fst y.fst * y.snd := by
  cases op with
  | add => simp [arith, lhsSlope, rhsSlope]
  | sub =>
    simp [arith, lhsSlope, rhsSlope]
    ring
  | mul =>
    simp [arith, lhsSlope, rhsSlope]
    ring
  | div =>
    simp [arith, dual, lhsSlope, rhsSlope, h.literal_two, h.pow_two]
    ring
  | pow =>
    simp [arith, dual, lhsSlope, rhsSlope, h.powerSlope_eq (hExponent rfl)]

end Exact

end Interpretation

/-! ## Operations on dual numbers -/

/-- The first parts of an array of dual numbers. -/
def Tensor.primal (a : Tensor (DualNumber K)) : Tensor K := ⟨a.shape, fun p => (a.entry p).fst⟩

namespace Operation

variable {I : Interpretation K} {op : Operation} {operands : List (Tensor (DualNumber K))}
  {out : Shape}

/-- The first parts of a result are the result of the first parts. -/
theorem fst_entry (hFits : op.Fits (operands.map (·.shape)) out) (p : Position) :
    (op.entry I.dual operands out p).fst = op.entry I (operands.map Tensor.primal) out p := by
  generalize hShapes : operands.map (·.shape) = shapes at hFits
  cases hFits with
  | @arith op =>
    obtain ⟨a, b, rfl, rfl, rfl⟩ := eq_pair_of_map hShapes
    cases op <;> simp [entry, Interpretation.arith, Interpretation.dual, Tensor.primal,
      Tensor.aligned]
  | contract =>
    obtain ⟨a, b, rfl, rfl, rfl⟩ := eq_pair_of_map hShapes
    simp [entry, Tensor.primal, fst_sum]
  | reduceSum =>
    obtain ⟨a, rfl, rfl⟩ := eq_singleton_of_map hShapes
    simp [entry, Tensor.primal, fst_sum]
  | foreign => simp [entry, Interpretation.dual, Tensor.primal, Function.comp_def]
  | indicator =>
    obtain ⟨a, b, rfl, rfl, rfl⟩ := eq_pair_of_map hShapes
    simp [entry, Interpretation.dual, Tensor.primal, Tensor.aligned]
  | accumulate =>
    obtain ⟨a, b, rfl, rfl, rfl⟩ := eq_pair_of_map hShapes
    simp [entry, Tensor.primal, Tensor.aligned]
  | neg =>
    obtain ⟨a, rfl, rfl⟩ := eq_singleton_of_map hShapes
    simp [entry, Tensor.primal, Tensor.aligned]
  | call =>
    obtain ⟨a, rfl, rfl⟩ := eq_singleton_of_map hShapes
    simp [entry, Interpretation.dual, Tensor.primal, Tensor.aligned]
  | broadcast =>
    obtain ⟨a, rfl, rfl⟩ := eq_singleton_of_map hShapes
    rfl
  | transpose =>
    obtain ⟨a, rfl, rfl⟩ := eq_singleton_of_map hShapes
    rfl
  | reshape =>
    obtain ⟨a, rfl, rfl⟩ := eq_singleton_of_map hShapes
    rfl
  | cast =>
    obtain ⟨a, rfl, rfl⟩ := eq_singleton_of_map hShapes
    rfl

/-- The second parts of a result are the sum of what belongs to each operand. -/
theorem snd_entry (hI : I.Exact) {exponent : Option Float}
    (hFits : op.Fits (operands.map (·.shape)) out)
    (hExponent : op = .arith .pow → ∀ c ∈ exponent, I.ExactExponent c ∧
      ∀ q, ((operands.getD 1 ⟨[], 0⟩).entry q).fst = I.literal c) (p : Position) :
    (op.entry I.dual operands out p).snd =
      (op.slots.map fun slot => op.differential I exponent (operands.map Tensor.primal) slot
        (fun q => ((operands.getD slot ⟨[], 0⟩).entry q).snd) out p).sum := by
  generalize hShapes : operands.map (·.shape) = shapes at hFits
  cases hFits with
  | @arith op =>
    obtain ⟨a, b, rfl, rfl, rfl⟩ := eq_pair_of_map hShapes
    -- Only a power reads the exponent, and then it is the entry of the right operand.
    have hPower : op = .pow → ∀ c ∈ exponent, (b.aligned p).fst = I.literal c ∧
        I.ExactExponent c := by
      rintro rfl c hc
      exact ⟨(hExponent rfl c hc).2 _, (hExponent rfl c hc).1⟩
    rw [show entry I.dual (.arith op) [a, b] out p = I.dual.arith op (a.aligned p) (b.aligned p)
      from rfl, hI.snd_arith op hPower]
    simp [slots, differential, Tensor.primal, Tensor.aligned]
  | @call f =>
    obtain ⟨a, rfl, rfl⟩ := eq_singleton_of_map hShapes
    simp [slots, entry, differential, Interpretation.dual, Tensor.primal, Tensor.aligned,
      hI.callSlope_eq]
  | @contract axes =>
    obtain ⟨a, b, rfl, rfl, rfl⟩ := eq_pair_of_map hShapes
    have hProducts : (entry I.dual (.contract axes) [a, b] (axes.outShape a.shape b.shape) p).snd =
        ∑ x ∈ axes.pairs a.shape b.shape p, ((b.entry x.2).fst * (a.entry x.1).snd +
          (a.entry x.1).fst * (b.entry x.2).snd) := by
      simp [entry, snd_sum, mul_comm, add_comm]
    rw [hProducts, Finset.sum_add_distrib]
    simp [slots, differential, Tensor.primal]
  | reduceSum =>
    obtain ⟨a, rfl, rfl⟩ := eq_singleton_of_map hShapes
    simp [slots, entry, differential, Tensor.primal, snd_sum]
  | indicator =>
    obtain ⟨a, b, rfl, rfl, rfl⟩ := eq_pair_of_map hShapes
    simp [slots, entry, Interpretation.dual]
  | accumulate =>
    obtain ⟨a, b, rfl, rfl, rfl⟩ := eq_pair_of_map hShapes
    simp [slots, entry, differential, Tensor.primal, Tensor.aligned]
  | neg =>
    obtain ⟨a, rfl, rfl⟩ := eq_singleton_of_map hShapes
    simp [slots, entry, differential, Tensor.primal, Tensor.aligned]
  | broadcast =>
    obtain ⟨a, rfl, rfl⟩ := eq_singleton_of_map hShapes
    simp [slots, entry, differential, Tensor.primal]
  | transpose =>
    obtain ⟨a, rfl, rfl⟩ := eq_singleton_of_map hShapes
    simp [slots, entry, differential, Tensor.primal]
  | reshape =>
    obtain ⟨a, rfl, rfl⟩ := eq_singleton_of_map hShapes
    simp [slots, entry, differential, Tensor.primal]
  | cast =>
    obtain ⟨a, rfl, rfl⟩ := eq_singleton_of_map hShapes
    simp [slots, entry, differential, Tensor.primal]
  | foreign => simp [slots, entry, Interpretation.dual]

end Operation

/-! ## Graphs on dual numbers -/

namespace Graph

/-- The constants in the exponents of the graph can be lowered by one exactly. -/
def ExactExponents (I : Interpretation K) (g : Graph) : Prop :=
  ∀ v a b s c, g.get? v = some ⟨.op (.arith .pow) [a, b], s⟩ → g.literal? b = some c →
    I.ExactExponent c

/-- The arrays at the inputs together with their tangents. -/
def dualInputs (inputs tangents : ValueId → Position → K) : ValueId → Position → DualNumber K :=
  fun v p => withTangent (inputs v p) (tangents v p)

/-- The derivative of a value in the direction of the tangents at the inputs. -/
def tangent (I : Interpretation K) (inputs tangents : ValueId → Position → K) (g : Graph)
    (v : ValueId) (p : Position) : K :=
  (g.entry I.dual (dualInputs inputs tangents) v p).snd

variable {I : Interpretation K} {inputs tangents : ValueId → Position → K} {g : Graph}

private theorem map_primal {operands : List ValueId}
    (h : ∀ w ∈ operands, ∀ q,
      (g.entry I.dual (dualInputs inputs tangents) w q).fst = g.entry I inputs w q) :
    (operands.map (g.tensor I.dual (dualInputs inputs tangents))).map Tensor.primal =
      operands.map (g.tensor I inputs) := by
  rw [List.map_map]
  apply List.map_congr_left
  intro w hw
  show Tensor.mk _ _ = Tensor.mk _ _
  congr 1
  funext q
  exact h w hw q

/-- The first parts of the entries are the entries over the field. -/
theorem fst_entry_dual (hg : g.WellFormed) (v : ValueId) (p : Position) :
    (g.entry I.dual (dualInputs inputs tangents) v p).fst = g.entry I inputs v p := by
  induction v using Nat.strong_induction_on generalizing p with
  | _ v ih =>
    cases hGet : g.get? v with
    | none =>
      rw [entry, hGet, entry, hGet]
      rfl
    | some value =>
      obtain ⟨content, s⟩ := value
      cases content with
      | leaf =>
        rw [entry_of_leaf hGet, entry_of_leaf hGet]
        exact fst_withTangent _ _
      | literal x =>
        rw [entry_of_literal hGet, entry_of_literal hGet]
        exact fst_withTangent _ _
      | op op operands =>
        -- The first parts of the operands are their values, by the induction, and so is that of the
        -- result.
        have hBefore := hg.before hGet
        have hFits := hg.fits hGet
        rw [entry_of_op hGet hBefore, entry_of_op hGet hBefore, Operation.fst_entry,
          map_primal fun w hw => ih w (hBefore w hw)]
        rwa [List.map_map]

theorem tangent_of_leaf {v : ValueId} {s : Shape} (h : g.get? v = some ⟨.leaf, s⟩)
    (p : Position) : g.tangent I inputs tangents v p = tangents v p := by
  rw [tangent, entry_of_leaf h]
  exact snd_withTangent _ _

theorem tangent_of_literal {v : ValueId} {x : Float} {s : Shape}
    (h : g.get? v = some ⟨.literal x, s⟩) (p : Position) :
    g.tangent I inputs tangents v p = 0 := by
  rw [tangent, entry_of_literal h]
  exact snd_withTangent _ _

private theorem exact_of_literal? (hg : g.WellFormed) (hExponents : g.ExactExponents I)
    {v : ValueId} {operands : List ValueId} {s : Shape}
    (h : g.get? v = some ⟨.op (.arith .pow) operands, s⟩) {c : Float}
    (hc : g.literal? (operands.getD 1 0) = some c) :
    I.ExactExponent c ∧
      ∀ q, g.entry I inputs (operands.getD 1 0) q = I.literal c := by
  have hFits := hg.fits h
  generalize hShapes : operands.map g.shape = shapes at hFits
  cases hFits
  obtain ⟨a, b, rfl, -, -⟩ := eq_pair_of_map hShapes
  exact ⟨hExponents v a b s c h hc, entry_of_literal (literal?_eq_some hc)⟩

/-- The tangent of an operation is the sum of its operands' parts. -/
theorem tangent_of_op (hg : g.WellFormed) (hI : I.Exact) (hExponents : g.ExactExponents I)
    {v : ValueId} {op : Operation} {operands : List ValueId} {s : Shape}
    (h : g.get? v = some ⟨.op op operands, s⟩) (p : Position) :
    g.tangent I inputs tangents v p =
      (op.slots.map fun slot => g.part I inputs op operands slot
        (g.tangent I inputs tangents (operands.getD slot 0)) s p).sum := by
  have hFits := hg.fits h
  have hGetD : ∀ slot < operands.length,
      (operands.map (g.tensor I.dual (dualInputs inputs tangents))).getD slot ⟨[], 0⟩ =
        g.tensor I.dual (dualInputs inputs tangents) (operands.getD slot 0) := by
    intro slot hSlot
    simp [List.getD, hSlot]
  -- A recorded exponent is a literal operand, whose dual entry has the literal as first part.
  have hExponent : op = .arith .pow → ∀ c ∈ g.literal? (operands.getD 1 0),
      I.ExactExponent c ∧ ∀ q, (((operands.map (g.tensor I.dual
        (dualInputs inputs tangents))).getD 1 ⟨[], 0⟩).entry q).fst = I.literal c := by
    rintro rfl c hc
    obtain ⟨hExact, hEntry⟩ := @exact_of_literal? K _ I inputs g hg hExponents v operands s h c hc
    refine ⟨hExact, ?_⟩
    intro q
    have hLength : 1 < (operands.map g.shape).length :=
      Operation.lt_length_of_mem_slots hFits (by simp [Operation.slots])
    rw [hGetD 1 (by simpa using hLength), ← hEntry q]
    exact fst_entry_dual hg _ q
  rw [tangent, entry_of_op h (hg.before h), Operation.snd_entry hI (fits_tensors _ _ hFits)
    hExponent, map_primal fun w _ => fst_entry_dual hg w]
  congr 1
  apply List.map_congr_left
  intro slot hSlot
  have hLength := Operation.lt_length_of_mem_slots hFits hSlot
  rw [hGetD slot (by simpa using hLength)]
  rfl

/-- **With exact arithmetic the recorded slopes give the derivative.** -/
theorem tangent_eq_recordedTangent (hg : g.WellFormed) (hI : I.Exact)
    (hExponents : g.ExactExponents I) (v : ValueId) {p : Position} (hp : p ∈ (g.shape v).box) :
    g.tangent I inputs tangents v p = g.recordedTangent I inputs tangents v p := by
  induction v using Nat.strong_induction_on generalizing p with
  | _ v ih =>
    cases hGet : g.get? v with
    | none =>
      rw [tangent, entry, hGet, recordedTangent, hGet]
      rfl
    | some value =>
      obtain ⟨content, s⟩ := value
      cases content with
      | leaf => rw [tangent_of_leaf hGet, recordedTangent_of_leaf hGet]
      | literal x => rw [tangent_of_literal hGet, recordedTangent_of_literal hGet]
      | op op operands =>
        rw [shape_of_get? hGet] at hp
        have hFits := hg.fits hGet
        rw [tangent_of_op hg hI hExponents hGet, recordedTangent_of_op hg hGet]
        -- Both are sums over the slots, and each slot reads the tangent of an operand.
        congr 1
        apply List.map_congr_left
        intro slot hSlot
        apply part_congr hFits hSlot hp
        intro q hq
        exact ih _ (hg.before hGet _ (getD_mem_of_mem_slots hFits hSlot).1) hq

end Graph

end ArrayEquations
