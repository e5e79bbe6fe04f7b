import ArrayEquations.Derivative.Transform
import ArrayEquations.Proofs.CheckedReverse
import ArrayEquations.Proofs.DefinedSymbols
import ArrayEquations.Proofs.DerivedForward

/-!
# ArrayEquations — derivatives with every access checked

A trace that an import accepts is differentiated without a failing access, in any mode and with
respect to any positions. What comes out keeps to what formulas rely on: its graph is regular, and
its annotations speak of values that are there.

## Main definitions

* `Checked.differentiate` — a derivative of a trace.
* `Trace.Accessible` — what the equations of a trace rely on.

## Main results

* `Checked.matches_differentiate` — no access of a differentiation fails.
* `Trace.Importable.accessible_of_differentiate` — derived traces are accessible.
-/

namespace ArrayEquations

/-- What a trace is differentiated with respect to are values of its graph. -/
theorem Trace.lt_of_selectArguments {t : Trace} (h : t.WellFormed) {positions : List Nat}
    {wrt : List ValueId} (hSelect : selectArguments t positions = .ok wrt) :
    ∀ a ∈ wrt, a < t.graph.size :=
  fun _ ha => Graph.lt_size_of_get? ((selects_of_selectArguments h hSelect).leaf h ha)

namespace Checked

/-! ## Derivatives -/

/-- Goes on recording where the trace ended, and closes the recording under its name. -/
def extend (t : Trace) (action : CheckedDifferentiating (List ValueId)) :
    Checked DerivativeError Trace := do
  let r ← (Recorder.resume t).mapError DerivativeError.recording
  let (outputs, r) ← (action.run.run r : Option _)
  let outputs ← outputs
  (r.finish t.name outputs).mapError DerivativeError.recording

/-- Whether the trace has one output with all extents one. -/
def hasScalarOutput (t : Trace) : Option Bool :=
  if t.outputs.length = 1 then do
    let o ← item? t.outputs 0
    let s ← shape? t.graph o
    return s.all (· == 1)
  else some false

/-- The derivative of a trace with respect to the arguments at the positions given. -/
def differentiate (t : Trace) (mode : Mode) (positions : List Nat) :
    Checked DerivativeError Trace := do
  let arguments ← selectArguments t positions
  let scalar ← (if mode = .grad then hasScalarOutput t else some true : Option Bool)
  if !scalar then throw (.notScalar t.name)
  match mode with
  | .jvp => extend t (recordForward t.graph arguments t.outputs)
  | .vjp | .grad =>
    let bound := t.bindings.map (·.value)
    extend t (recordReverse t.graph bound arguments t.outputs (mode == .grad))

section Derivatives

variable {t : Trace}

/-- A differentiation without failing accesses makes a trace without one. -/
theorem matches_extend (h : t.WellFormed) {action : CheckedDifferentiating (List ValueId)}
    {action' : Differentiating (List ValueId)}
    (hAction : Conforms action action' t.recorder fun _ _ => True) :
    Matches (extend t action) (t.extend action') := by
  unfold extend Trace.extend
  rw [Trace.resume_eq_ok h]
  refine matches_access hAction.run_eq ?_
  exact (matches_lift _).bind fun outputs _ => matches_lift _

theorem hasScalarOutput_eq (h : t.WellFormed) : hasScalarOutput t = some t.hasScalarOutput := by
  unfold hasScalarOutput Trace.hasScalarOutput
  cases hOutputs : t.outputs with
  | nil => rfl
  | cons o rest =>
    cases rest with
    | nil =>
      -- The shape is only read of an output that is the only one.
      have ho : o < t.graph.size := h.output_lt o (by simp [hOutputs])
      show (shape? t.graph o).bind _ = _
      rw [shape?_eq ho]
      rfl
    | cons => rfl

/-- **No access of a differentiation fails**, in any mode and with respect to any positions. -/
theorem matches_differentiate (h : t.WellFormed) (mode : Mode) (positions : List Nat) :
    Matches (differentiate t mode positions) (t.differentiate mode positions) := by
  unfold differentiate Trace.differentiate
  refine (matches_lift _).bind fun arguments hSelect => ?_
  have hArguments := Trace.lt_of_selectArguments h hSelect
  -- Reverse mode and gradients differ in the seeds only.
  have hReverse (gradient : Bool) := matches_extend h (conforms_recordReverse (r := t.recorder)
    h.graph (t.bindings.map (·.value)) hArguments h.output_lt gradient le_rfl)
  cases mode with
  | jvp =>
    refine matches_access (if_neg (by decide)) ?_
    exact matches_extend h (conforms_recordForward h.graph.regular hArguments h.output_lt le_rfl)
  | vjp =>
    refine matches_access (if_neg (by decide)) ?_
    exact hReverse false
  | grad =>
    refine matches_access ((if_pos rfl).trans (hasScalarOutput_eq h)) ?_
    cases t.hasScalarOutput with
    | false => exact matches_throw_bind _ _
    | true => exact hReverse true

end Derivatives

end Checked

/-! ## What equations rely on -/

namespace Trace

/-- What the equations of a trace rely on: a regular graph, and annotations that speak of values of
the graph. -/
structure Accessible (d : Trace) : Prop where
  readable : d.Readable
  regular : d.graph.Regular
  primal_lt : ∀ tag ∈ d.tags, tag.primal < d.graph.size

variable {t d : Trace}

theorem Importable.accessible (h : t.Importable) : t.Accessible :=
  ⟨h.readable, h.wellFormed.graph.regular, fun tag hTag => (h.tag_lt tag hTag).1⟩

/-- What goes on recording where a trace ended keeps the graph regular. -/
theorem regular_of_extend (h : t.WellFormed) {action : Differentiating (List ValueId)}
    {action' : CheckedDifferentiating (List ValueId)}
    (hAction : Checked.Conforms action' action t.recorder fun _ _ => True)
    (hExtend : t.extend action = .ok d) : d.graph.Regular := by
  obtain ⟨r, hRun, hEq⟩ := recorder_of_extend h hExtend
  -- The graph of the new trace is the one that the action ended with.
  have hGraph : d.graph = (action.run t.recorder).2.graph := by rw [hRun, hEq]
  rw [hGraph]
  exact hAction.regular h.graph.regular

/-- What a differentiation adds are seeds and tags of values that are there. -/
theorem exists_derives (h : t.WellFormed) {mode : Mode} {positions : List Nat}
    (hDerivative : t.differentiate mode positions = .ok d) :
    ∃ seeds tagged, t.recorder.Derives d.recorder seeds tagged := by
  obtain ⟨wrt, hSelect⟩ := exists_selectArguments_of_differentiate hDerivative
  by_cases hMode : mode = .jvp
  · subst hMode
    obtain ⟨seeds, tangents, carried, hDerives⟩ := derivesForward h hSelect hDerivative
    exact ⟨seeds, _, hDerives.recorder⟩
  · obtain ⟨seeds, starts, carried, hDerives⟩ := derivesBackward h hMode hSelect hDerivative
    exact ⟨seeds, _, hDerives.recorder⟩

/-- The derivative of a trace goes on recording where the trace ended, and no access of that
fails. -/
theorem exists_extend (h : t.WellFormed) {mode : Mode} {positions : List Nat}
    (hDerivative : t.differentiate mode positions = .ok d) :
    ∃ action action', t.extend action = .ok d ∧
      Checked.Conforms action' action t.recorder fun _ _ => True := by
  obtain ⟨wrt, hSelect⟩ := exists_selectArguments_of_differentiate hDerivative
  have hArguments := lt_of_selectArguments h hSelect
  have hReverse (gradient : Bool) := Checked.conforms_recordReverse (r := t.recorder) h.graph
    (t.bindings.map (·.value)) hArguments h.output_lt gradient le_rfl
  cases mode with
  | jvp => exact ⟨_, _, differentiate_jvp hSelect ▸ hDerivative,
      Checked.conforms_recordForward h.graph.regular hArguments h.output_lt le_rfl⟩
  | vjp => exact ⟨_, _, differentiate_vjp hSelect ▸ hDerivative, hReverse false⟩
  | grad =>
    exact ⟨_, _, differentiate_grad hSelect (hasScalarOutput_of_grad hDerivative) ▸ hDerivative,
      hReverse true⟩

/-- **A derived trace keeps what equations rely on.** -/
theorem Importable.accessible_of_differentiate (h : t.Importable) {mode : Mode}
    {positions : List Nat} (hDerivative : t.differentiate mode positions = .ok d) :
    d.Accessible := by
  -- The checked action keeps the graph regular; what it adds is known from the action itself.
  obtain ⟨action, action', hExtend, hAction⟩ := exists_extend h.wellFormed hDerivative
  obtain ⟨seeds, tagged, hDerives⟩ := exists_derives h.wellFormed hDerivative
  exact ⟨h.readable_of_derives hDerives (output_lt_of_extend hExtend),
    regular_of_extend h.wellFormed hAction hExtend,
    fun tag hTag => (hDerives.forall_tag_lt h.tag_lt tag hTag).1⟩

end Trace

end ArrayEquations
