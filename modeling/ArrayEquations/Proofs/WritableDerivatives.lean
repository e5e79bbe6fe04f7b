import ArrayEquations.Proofs.GradientSoundness
import ArrayEquations.Proofs.InheritedForward
import ArrayEquations.Proofs.Obstacles
import ArrayEquations.Proofs.RecordedForm
import ArrayEquations.Proofs.ReverseSoundness

/-!
# ArrayEquations — derivatives can be written

Take a recorded trace in which every operation can be written: none is foreign, and reshapes only
insert or drop axes of extent one. Each of its derivatives exists, and every operation of the
derivative can be written as well, so that it is transcribed whatever the options, as long as their
alphabet has symbols enough.

The steps of a differentiation add no foreign operation. A reshape that they add is the tangent of
a reshape, the cotangent of one, or the end of undoing a stretch. For the first two the derivative
quantity must have the shape of its primal, which is what both directions keep on their way through
the graph; the last inserts or drops axes of extent one.

## Main definitions

* `Graph.Writable` — every operation can be written.

## Main results

* `Graph.inherited_writable` — writable graphs stay writable when values are added.
* `Trace.derivative_transcribes` — the derivatives of a recorded trace are transcribed.
-/

namespace ArrayEquations

/-! ## Writable graphs -/

namespace Graph

/-- Every operation can be written as a formula: none is foreign, and the operand of a reshape,
which comes before it, differs from it in axes of extent one only. -/
structure Writable (g : Graph) : Prop where
  rules : g.HasRules
  reshape : ∀ {v a}, g.op? v = some (.reshape, [a]) →
    a < v ∧ (g.shape a).nonSingleton = (g.shape v).nonSingleton

/-- The value may be the next one of a writable graph. -/
def CanWrite (g : Graph) (new : Value) : Prop :=
  match new.content with
  | .op (.foreign _) _ => False
  | .op .reshape [a] => a < g.size ∧ (g.shape a).nonSingleton = new.shape.nonSingleton
  | _ => True

variable {g : Graph}

/-- A writable graph has nothing that cannot be written. -/
theorem Writable.obstacle?_eq_none (h : g.Writable) (v : ValueId) : g.obstacle? v = none := by
  unfold obstacle?
  split
  · rename_i name operands hOp
    exact absurd hOp (h.rules v name operands)
  · rename_i a hOp
    rw [if_pos (h.reshape hOp).2]
  · rfl

theorem Writable.push (h : g.Writable) {new : Value} (hNew : g.CanWrite new) :
    (g.push new).Writable := by
  constructor
  · intro v name operands hOp
    rcases get?_push (op?_eq_some hOp) with hOld | ⟨-, hEq⟩
    · exact h.rules v name operands (op?_of_get? hOld)
    · unfold CanWrite at hNew
      rw [← hEq] at hNew
      exact hNew
  · intro v a hOp
    have hExtends := Extends.push g new
    rcases get?_push (op?_eq_some hOp) with hOld | ⟨rfl, hEq⟩
    · -- An old reshape and its operand are what they were.
      obtain ⟨hBefore, hSame⟩ := h.reshape (op?_of_get? hOld)
      have hv := lt_size_of_get? hOld
      rw [hExtends.shape_eq hv, hExtends.shape_eq (Nat.lt_trans hBefore hv)]
      exact ⟨hBefore, hSame⟩
    · unfold CanWrite at hNew
      rw [← hEq] at hNew
      obtain ⟨hBefore, hSame⟩ := hNew
      rw [hExtends.shape_eq hBefore]
      exact ⟨hBefore, hSame⟩

theorem canWrite_of_isPlain {op : Operation} (h : op.isPlain = true) (g : Graph)
    (operands : List ValueId) (s : Shape) : g.CanWrite ⟨.op op operands, s⟩ := by
  cases op with
  | foreign name => exact absurd h (by simp [Operation.isPlain])
  | reshape => exact absurd h (by simp [Operation.isPlain])
  | _ => trivial

/-- **Writable graphs stay writable**, whatever the shapes of new values, if their reshapes only
insert or drop axes of extent one. -/
theorem inherited_writable : Inherited Writable (fun _ => True) True where
  admits_nil := trivial
  admits_of_le _ _ := trivial
  push_leaf h _ := h.push trivial
  push_literal h := h.push trivial
  push_plain h _ hPlain := h.push (canWrite_of_isPlain hPlain _ _ _)
  push_reshape h _ ha hSame := h.push ⟨ha, hSame trivial⟩

/-- In recorded form, summands that depend on inputs have the shape of their sum, for they are no
constants. -/
theorem Recorded.fullSummands (h : g.Recorded) {wrt : List ValueId}
    (hLeaf : ∀ a ∈ wrt, g.get? a = some ⟨.leaf, g.shape a⟩) : g.FullSummands wrt := by
  intro v op operands s hGet hSum w hw hDepends
  have hElementwise : op.isElementwise = true := by
    rcases hSum with rfl | rfl | rfl <;> rfl
  apply h hGet hElementwise w hw
  cases hDepends with
  | source hMem =>
    rw [literal?, hLeaf w hMem]
    rfl
  | operand _ hOperand =>
    -- What has operands is an operation.
    cases hGetW : g.get? w with
    | none =>
      rw [Graph.operands, hGetW] at hOperand
      exact absurd hOperand List.not_mem_nil
    | some value =>
      obtain ⟨content, sw⟩ := value
      cases content with
      | op op' operands' => rw [literal?, hGetW]; rfl
      | leaf => rw [literal?, hGetW]; rfl
      | literal c =>
        rw [Graph.operands, hGetW] at hOperand
        exact absurd hOperand List.not_mem_nil

end Graph

/-! ## Derived traces -/

namespace Trace

open Reverse Differentiating

variable {t : Trace} {positions : List Nat} {wrt : List ValueId}

/-- What a derivative is once its recording has ended: a trace that extends the one that is
differentiated, with a graph that has what the recording hands down. -/
private theorem exists_inherited (h : t.WellFormed) {action : Differentiating (List ValueId)}
    {outputs : List ValueId} {added : List Argument} {r : Recorder} {P : Graph → Prop}
    (hRun : action.run t.recorder = (.ok outputs, r)) (hExtends : t.recorder.Extends r added)
    (hNonempty : outputs ≠ []) (hLt : ∀ o ∈ outputs, o < r.graph.size)
    (hHandsDown : HandsDown P action t.recorder) (hGraph : P t.graph) :
    ∃ d, t.extend action = .ok d ∧ d.graph.WellFormed ∧ P d.graph := by
  obtain ⟨hP, -⟩ := hHandsDown hGraph
  rw [hRun] at hP
  exact ⟨_, extend_eq_ok h hRun hExtends hNonempty hLt, hExtends.wellFormed h.graph, hP⟩

/-- **The derivatives of a recorded trace have what recordings hand down**: for any valid positions
each of them exists, where a gradient is asked for of one number only. -/
theorem exists_derivative {P : Graph → Prop} {Admits : Shape → Prop} {Strict : Prop}
    (hP : Graph.Inherited P Admits Strict) (ht : t.IsRecorded) (hRules : t.graph.HasRules)
    (hGraph : P t.graph) (hShapes : ∀ v, Admits (t.graph.shape v))
    (hReshapes : ∀ v a, t.graph.op? v = some (.reshape, [a]) →
      (t.graph.shape a).nonSingleton = (t.graph.shape v).nonSingleton)
    (hArguments : t.arguments ≠ []) (hPositions : ∀ p ∈ positions, p < t.arguments.length)
    {mode : Mode} (hScalar : mode = .grad → ∃ o, t.outputs = [o] ∧ t.graph.shape o = []) :
    ∃ d, t.differentiate mode positions = .ok d ∧ d.graph.WellFormed ∧ P d.graph := by
  have h := ht.importable.wellFormed
  obtain ⟨wrt, hSelect, hSelects⟩ := t.exists_selectArguments h hPositions
  have hLeaf : ∀ a ∈ wrt, t.graph.get? a = some ⟨.leaf, t.graph.shape a⟩ :=
    fun a ha => hSelects.leaf h ha
  have hNonempty : ∀ {ws : List ValueId} {c : Cotangents ℚ} {g' : Graph},
      List.Forall₂ (IsCotangent plainReading 0 t.graph c g') wrt ws → ws ≠ [] := by
    rintro ws c g' hAll rfl
    exact hSelects.nonempty hArguments (List.length_eq_zero_iff.mp hAll.length_eq)
  have hReverse : ∀ {gradient : Bool} {outputs : List ValueId}, outputs = t.outputs →
      (gradient = true → ∀ o ∈ outputs, t.graph.shape o = []) →
      HandsDown P (recordReverse t.graph (t.bindings.map (·.value)) wrt outputs gradient)
        t.recorder := by
    rintro gradient outputs rfl hGradient
    exact handsDown_recordReverse hP hShapes h.graph rfl (fun _ => hReshapes) _ hLeaf
      h.output_lt fun hTrue => ⟨ht.recorded, hGradient hTrue⟩
  cases mode with
  | jvp =>
    have hFull := Graph.Recorded.fullSummands ht.recorded hLeaf
    have hLtWrt : ∀ a ∈ wrt, a < t.graph.size := fun a ha => Graph.lt_size_of_get? (hLeaf a ha)
    obtain ⟨result, r, hRun, seeds, tangents, rfl, hExtends, -, hTangents⟩ :=
      (Forward.shaped_recordForward h.graph hRules hFull
        (show t.recorder.graph = t.graph from rfl) hSelects.nodup hLtWrt t.outputs).exists_run
    rw [differentiate_jvp hSelect]
    refine exists_inherited h hRun hExtends (by simp [h.outputs_ne_nil]) ?_
      (Forward.handsDown_recordForward hP hShapes h.graph hRules hFull rfl hSelects.nodup hLtWrt
        (fun _ => hReshapes) t.outputs) hGraph
    intro o ho
    rcases List.mem_append.mp ho with ho | ho
    · exact Nat.lt_of_lt_of_le (h.output_lt o ho) hExtends.graph.size_le
    · obtain ⟨o', -, hFits⟩ := exists_beside_of_forall₂ hTangents ho
      exact hFits.lt
  | vjp =>
    obtain ⟨seeds, -, hFollows⟩ := @follows_recordReverse ℚ _ plainReading 0 t.recorder t.graph
      wrt h.graph (fun _ _ => rfl) rfl (t.bindings.map (·.value)) hLeaf t.outputs h.output_lt
    obtain ⟨c, hPlan⟩ := @exists_plan ℚ _ plainReading 0 t.graph wrt hRules
      (seedArrays 0 t.outputs seeds)
    obtain ⟨ws, r, hRun, hExtends, -, hAll⟩ :=
      ((hFollows 0 fun _ _ _ _ => rfl).1 c hPlan).exists_run
    rw [differentiate_vjp hSelect]
    exact exists_inherited h hRun hExtends (hNonempty hAll) (IsCotangent.all_lt hAll)
      (hReverse rfl fun hNot => absurd hNot (by simp)) hGraph
  | grad =>
    obtain ⟨o, hOutput, hShape⟩ := hScalar rfl
    obtain ⟨c, hPlan⟩ := @exists_plan ℚ _ plainReading 0 t.graph wrt hRules
      [(o, fun _ => 1)]
    obtain ⟨ws, r, hRun, ⟨added, hExtends⟩, hAll⟩ := ((follows_gradient (I := plainReading) 0 h
      ht.recorded (fun _ _ => rfl) rfl hSelects hShape).1 c hPlan).exists_run
    rw [differentiate_grad hSelect (hasScalarOutput_of_eq hOutput hShape), hOutput]
    exact exists_inherited h hRun hExtends (hNonempty hAll) (IsCotangent.all_lt hAll)
      (hReverse hOutput.symm fun _ => by simp [hShape]) hGraph

/-- **Differentiation keeps traces transcribable.** Take a recorded trace with an argument, without
foreign operations, with no reshape that does more than insert or drop axes of extent one, and with
shapes whose numbers of entries fit a word. For any valid positions each derivative exists, the
gradient if the trace has one output, which is a number. No operation of the derivative is in the
way of a transcription, and all its entries are counted exactly. Whatever the options, if their
alphabet has the symbols that are needed at once, every search for a symbol ends, and the run to
the text gets there. -/
theorem derivative_transcribes (ht : t.IsRecorded) (hArguments : t.arguments ≠ [])
    (hRules : t.graph.HasRules)
    (hReshapes : ∀ v a, t.graph.op? v = some (.reshape, [a]) →
      (t.graph.shape a).nonSingleton = (t.graph.shape v).nonSingleton)
    (hCounts : ∀ v, (t.graph.shape v).Countable)
    (hPositions : ∀ p ∈ positions, p < t.arguments.length) {mode : Mode}
    (hScalar : mode = .grad → ∃ o, t.outputs = [o] ∧ t.graph.shape o = []) :
    ∃ d, t.differentiate mode positions = .ok d ∧ (∀ v, d.graph.obstacle? v = none) ∧
      (∀ v, (d.graph.shape v).count? = some (d.graph.shape v).size) ∧
      ∀ options, d.SymbolsSuffice options →
        d.SearchesEnd options ∧ (d.run options .render).Completed d (d.warnings options) := by
  have hWritable : t.graph.Writable := by
    refine ⟨hRules, ?_⟩
    intro v a hOp
    have hBefore := ht.importable.wellFormed.graph.before (Graph.op?_eq_some hOp) a (by simp)
    exact ⟨hBefore, hReshapes v a hOp⟩
  obtain ⟨d, hDerivative, hGraph, hDerived⟩ := exists_derivative Graph.inherited_writable ht hRules
    hWritable (fun _ => trivial) hReshapes hArguments hPositions hScalar
  obtain ⟨d', hDerivative', -, hCounted⟩ := exists_derivative (Graph.inherited_countable 0) ht
    hRules (fun v _ => hCounts v) hCounts hReshapes hArguments hPositions hScalar
  obtain rfl := Except.ok.inj (hDerivative.symm.trans hDerivative')
  refine ⟨d, hDerivative, hDerived.obstacle?_eq_none,
    fun v => (hCounted v (Nat.zero_le v)).count?_eq, ?_⟩
  intro options hSymbols
  refine ⟨searchesEnd hGraph hSymbols, ?_⟩
  rcases run_settles hGraph options with ⟨-, hCompleted⟩ | ⟨e, ⟨p, -, -, u, -, hObstacle⟩, -⟩
  · exact hCompleted
  · -- What a run stops at is an operation of the graph that cannot be written.
    have hNone : d.graph.obstacle? u = none := hDerived.obstacle?_eq_none u
    exact absurd (hNone.symm.trans hObstacle) (by simp)

/-- The total of a row of three numbers, which is first turned into a matrix of one row. -/
def rowTotal : Trace where
  name := "f"
  graph := ⟨#[⟨.leaf, [3]⟩, ⟨.op .reshape [0], [1, 3]⟩, ⟨.op (.reduceSum [0, 1]) [1], []⟩]⟩
  arguments := [⟨0, some "x", false⟩]
  bindings := []
  tags := []
  outputs := [2]

/-- The gradient of the total reshapes its cotangent back to a row, and is transcribed. -/
theorem derivative_transcribes_rowTotal :
    ∃ d, rowTotal.differentiate .grad [0] = .ok d ∧ d.SymbolsSuffice {} ∧
      (d.run {} .render).Completed d (d.warnings {}) := by
  have hRecorded : rowTotal.IsRecorded :=
    ⟨[.argument [3] (some "x"), .reshape 0 [1, 3], .sumAll 1],
      ⟨rowTotal.graph, rowTotal.arguments, [], [], none⟩, "f", [2], by decide, by decide⟩
  have hRules : rowTotal.graph.HasRules := by
    intro v name operands hOp
    rcases v with _ | _ | _ | v <;>
      exact absurd hOp (by simp [Graph.op?, Graph.get?, rowTotal, Value.op?])
  have hReshapes : ∀ v a, rowTotal.graph.op? v = some (.reshape, [a]) →
      (rowTotal.graph.shape a).nonSingleton = (rowTotal.graph.shape v).nonSingleton := by
    intro v a hOp
    rcases v with _ | _ | _ | v
    case succ.zero =>
      obtain rfl : a = 0 := by
        simpa [Graph.op?, Graph.get?, rowTotal, Value.op?, eq_comm] using hOp
      decide
    all_goals exact absurd hOp (by simp [Graph.op?, Graph.get?, rowTotal, Value.op?])
  have hCounts : ∀ v, (rowTotal.graph.shape v).Countable :=
    Graph.countable_of_lt_size (by decide +kernel)
  have hPositions : ∀ p ∈ [0], p < rowTotal.arguments.length := by decide
  have hScalar : Mode.grad = .grad → ∃ v, rowTotal.outputs = [v] ∧ rowTotal.graph.shape v = [] :=
    fun _ => ⟨2, rfl, by decide⟩
  obtain ⟨d, hDerivative, -, -, hRuns⟩ := derivative_transcribes hRecorded (by decide) hRules
    hReshapes hCounts hPositions hScalar
  -- There are few enough operations, whatever the equations need of them.
  have hFew : ((rowTotal.differentiate .grad [0]).toOption.all fun d =>
      (planProgram d (d.threaded {}).1 (d.threaded {}).2).all fun p =>
        (d.graph.shape p.root).nonSingleton.length +
          ((List.range (p.root + 1)).map d.graph.opened).sum ≤ 256) = true := by
    decide +kernel
  rw [hDerivative] at hFew
  obtain ⟨d', hDerivative', hGraph, -⟩ := exists_derivative (Graph.inherited_countable 0) hRecorded
    hRules (fun v _ => hCounts v) hCounts hReshapes (by decide) hPositions hScalar
  obtain rfl := Except.ok.inj (hDerivative.symm.trans hDerivative')
  have hSymbols : d.SymbolsSuffice {} := by
    apply symbolsSuffice_of_le hGraph.ordered
    intro p hp
    have hLe := List.all_eq_true.mp hFew p hp
    exact Nat.le_trans (of_decide_eq_true hLe) (by decide)
  exact ⟨d, hDerivative, hSymbols, (hRuns {} hSymbols).2⟩

end Trace

end ArrayEquations
