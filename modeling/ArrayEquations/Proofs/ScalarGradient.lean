import ArrayEquations.Proofs.DerivedBackward
import ArrayEquations.Proofs.DerivedTrace
import ArrayEquations.Proofs.GradientSoundness
import ArrayEquations.Proofs.RecordedForm
import ArrayEquations.Proofs.ReverseSoundness

/-!
# ArrayEquations — which functions have a gradient

A gradient is asked for a function whose only output has all extents one. Its seed is a number,
whatever the rank of the output. An output that is a number has the shape of its seed, and then
the way back succeeds: the gradient exists, its outputs have the shapes of the arguments, and the
whole passes every check of an import.

An output with axes has not, and the operation that made it may then hand on what does not fit.

## Main results

* `Trace.grad_importable` — the gradient of a number can be imported.
* `Trace.grad_fails_on_unit_extents` — a matrix with one entry has none.
-/

namespace ArrayEquations

open Reverse in
/-- A cotangent of an argument has the shape of the argument, or is the constant zero. -/
theorem Reverse.IsCotangent.zero_or_shape {K : Type*} [Field K] {I : Interpretation K}
    {inputs : ValueId → Position → K} {c : Cotangents K} {g g' : Graph} {a w : ValueId}
    (h : IsCotangent I inputs g c g' a w) :
    g'.literal? w = some 0 ∨ g'.shape w = g.shape a := by
  rcases h with ⟨e, -, hFills⟩ | ⟨-, hZero⟩
  · exact Or.inr hFills.shape
  · left
    rw [Graph.literal?, hZero]
    rfl

namespace Trace

variable {t d : Trace} {positions : List Nat} {wrt : List ValueId}

/-- A reverse derivative or gradient can be imported if its graph is well-formed. -/
theorem Importable.of_backward (h : t.Importable) {mode : Mode} (hMode : mode ≠ .jvp)
    (hSelect : selectArguments t positions = .ok wrt)
    (hDerivative : t.differentiate mode positions = .ok d) (hGraph : d.graph.WellFormed)
    (hNonempty : d.outputs ≠ []) (hOutputs : ∀ o ∈ d.outputs, o < d.graph.size) :
    d.Importable := by
  obtain ⟨seeds, starts, carried, hDerives⟩ :=
    derivesBackward h.wellFormed hMode hSelect hDerivative
  -- The seeds are inputs of their own, or there are none.
  have hNodup : seeds.Nodup := by
    rcases hDerives.starts with ⟨-, hNodup⟩ | ⟨rfl, -⟩
    · exact hNodup
    · exact List.nodup_nil
  exact h.of_derives hDerives.recorder hGraph hNodup hNonempty hOutputs

/-- **A number has a gradient.** Take a recorded trace of operations that have rules, with an
argument and with one output, which is a number. For any valid positions there is a gradient. Its
outputs, one for each chosen argument, are the constant zero or have the shape of the argument. It
passes every check of an import, and if its numbers can be written in a document, it is imported
from both of its texts. -/
theorem grad_importable (ht : t.IsRecorded) (hRules : t.graph.HasRules)
    (hArguments : t.arguments ≠ []) {o : ValueId} (hOutput : t.outputs = [o])
    (hScalar : t.graph.shape o = []) (hPositions : ∀ p ∈ positions, p < t.arguments.length) :
    ∃ wrt d, selectArguments t positions = .ok wrt ∧ t.differentiate .grad positions = .ok d ∧
      List.Forall₂ (fun a w => d.graph.literal? w = some 0 ∨ d.graph.shape w = t.graph.shape a)
        wrt d.outputs ∧
      ofDraft d.toDraft = .ok d ∧
      (d.Sized → (∀ v x, d.graph.literal? v = some x → ExactInDocument x) →
        ofText d.prettyText = .ok d ∧ ofText d.compactText = .ok d) := by
  have h := ht.importable.wellFormed
  obtain ⟨wrt, hSelect, hSelects⟩ := t.exists_selectArguments h hPositions
  -- The plan of the cotangents always exists, and the recording follows it.
  obtain ⟨c, hPlan⟩ := @Reverse.exists_plan ℚ _ plainReading 0 t.graph wrt hRules
    [(o, fun _ => 1)]
  have hFollows := follows_gradient (I := plainReading) 0 h ht.recorded (fun _ _ => rfl) rfl
    hSelects hScalar
  obtain ⟨ws, r, hRun, ⟨added, hExtends⟩, hAll⟩ := (hFollows.1 c hPlan).exists_run
  have hNonempty : ws ≠ [] := by
    rintro rfl
    exact hSelects.nonempty hArguments (List.length_eq_zero_iff.mp hAll.length_eq)
  have hLt := Reverse.IsCotangent.all_lt hAll
  let d : Trace := ⟨t.name, r.graph, r.arguments, r.bindings, r.tags, ws⟩
  have hDerivative : t.differentiate .grad positions = .ok d := by
    rw [differentiate_grad hSelect (hasScalarOutput_of_eq hOutput hScalar), hOutput]
    exact extend_eq_ok h hRun hExtends hNonempty hLt
  have hDerived : d.Importable := ht.importable.of_backward (by decide) hSelect hDerivative
    (hExtends.wellFormed h.graph) hNonempty hLt
  exact ⟨wrt, d, hSelect, hDerivative, hAll.imp fun _ _ hOne => hOne.zero_or_shape,
    ofDraft_toDraft hDerived, hDerived.ofText_eq_ok⟩

/-- The product of two matrices, for shapes whose product has the shape given. -/
def matrixProduct (left right out : Shape) : Trace where
  name := "f"
  graph := ⟨#[⟨.leaf, left⟩, ⟨.leaf, right⟩,
    ⟨.op (.contract ⟨[left.rank - 1], [0], [], []⟩) [0, 1], out⟩]⟩
  arguments := [⟨0, some "x", false⟩, ⟨1, some "y", false⟩]
  bindings := []
  tags := []
  outputs := [2]

theorem matrixProduct_hasRules (left right out : Shape) :
    (matrixProduct left right out).graph.HasRules := by
  intro v name operands hOp
  match v with
  | 0 | 1 | 2 | _ + 3 =>
    exact absurd hOp (by simp [Graph.op?, Graph.get?, matrixProduct, Value.op?])

theorem vectorProduct_isRecorded : (matrixProduct [3] [3] []).IsRecorded :=
  ⟨[.argument [3] (some "x"), .argument [3] (some "y"), .matmul 0 1],
    ⟨(matrixProduct [3] [3] []).graph, (matrixProduct [3] [3] []).arguments, [], [], none⟩, "f",
    [2], by decide, by decide⟩

/-- The product of two vectors has a gradient. -/
theorem grad_importable_vectorProduct :
    ∃ d w₁ w₂, (matrixProduct [3] [3] []).differentiate .grad [0, 1] = .ok d ∧
      d.outputs = [w₁, w₂] ∧ ofDraft d.toDraft = .ok d := by
  obtain ⟨wrt, d, hSelect, hDerivative, hShapes, hImport, -⟩ :=
    grad_importable vectorProduct_isRecorded (matrixProduct_hasRules _ _ _) (by decide)
      (o := 2) rfl rfl
      (show ∀ p ∈ [0, 1], p < (matrixProduct [3] [3] []).arguments.length by decide)
  have hBoth : selectArguments (matrixProduct [3] [3] []) [0, 1] = .ok [0, 1] := by decide
  obtain rfl : wrt = [0, 1] := Except.ok.inj (hSelect.symm.trans hBoth)
  obtain ⟨w₁, w₂, hOutputs⟩ := List.length_eq_two.mp hShapes.length_eq.symm
  exact ⟨d, w₁, w₂, hDerivative, hOutputs, hImport⟩

/-- **A matrix with one entry has no gradient**, though a gradient is asked for: the seed is a
number, and the way back over the product sums over its axes. -/
theorem grad_fails_on_unit_extents :
    (matrixProduct [1, 3] [3, 1] [1, 1]).IsRecorded ∧
      (matrixProduct [1, 3] [3, 1] [1, 1]).graph.HasRules ∧
      (matrixProduct [1, 3] [3, 1] [1, 1]).hasScalarOutput = true ∧
      selectArguments (matrixProduct [1, 3] [3, 1] [1, 1]) [0] = .ok [0] ∧
      (matrixProduct [1, 3] [3, 1] [1, 1]).differentiate .grad [0] =
        .error (.recording (.shape (.axisOutOfRange "dot_general" 1 0))) := by
  refine ⟨?_, matrixProduct_hasRules _ _ _, by decide, by decide, ?_⟩
  · exact ⟨[.argument [1, 3] (some "x"), .argument [3, 1] (some "y"), .matmul 0 1],
      ⟨(matrixProduct [1, 3] [3, 1] [1, 1]).graph,
        (matrixProduct [1, 3] [3, 1] [1, 1]).arguments, [], [], none⟩, "f", [2], by decide,
      by decide⟩
  · with_unfolding_all rfl

end Trace

end ArrayEquations
