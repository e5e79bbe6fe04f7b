import ArrayEquations.Proofs.FormulaSteps
import ArrayEquations.Transcription

/-!
# ArrayEquations — the labels of outputs

The equations of a program are built in the order of their plans, each with the symbol planned
for it. The last plans are about the outputs of the trace, in order.

## Main results

* `buildPlanned_labels` — equations have the kinds and the symbols that are planned for them.
* `outputs_buildProgram` — the equations of outputs have the labels that the tags give.
-/

namespace ArrayEquations

/-! ## What the equations of a program are about -/

theorem Builder.equation_label {b : Builder} {kind : EquationKind} {symbol : Symbol}
    {root : ValueId} {e : Equation} (h : (b.equation kind symbol root).1 = .ok e) :
    e.kind = kind ∧ e.lhs.symbol = symbol := by
  obtain ⟨axes, inner, f, -, -, rfl, -⟩ := equation_eq_ok h
  exact ⟨rfl, rfl⟩

/-- Equations are built in the order of their plans, each of the kind and with the symbol
planned. -/
theorem buildPlanned_labels {b : Builder} {plans : List EquationPlan} {program : Program}
    (h : buildPlanned b plans = .ok program) :
    program.map (fun e => (e.kind, e.lhs.symbol)) = plans.map fun p => (p.kind, p.symbol) := by
  induction plans generalizing b program with
  | nil =>
    obtain rfl := Except.ok.inj h
    rfl
  | cons p plans ih =>
    obtain ⟨e, es, hOne, hRest, rfl⟩ := buildPlanned_cons_eq_ok h
    obtain ⟨hKind, hSymbol⟩ := Builder.equation_label hOne
    rw [List.map_cons, List.map_cons, hKind, hSymbol, ih hRest]

/-- Only the last plans are about outputs. -/
theorem outputs_planProgram (trace : Trace) (names : NameTable) (t : Threading) :
    (planProgram trace names t).filter (·.kind == .output) =
      trace.outputs.map fun o => ⟨.output, t.outputSymbol trace names o, o⟩ := by
  have hDerivatives : ∀ (kind : DerivativeKind) (v : ValueId),
      ∀ p ∈ planDerivatives t kind v, ¬ (p.kind == EquationKind.output) = true := by
    intro kind v p hp
    obtain ⟨d, -, rfl⟩ := List.mem_map.mp hp
    simp
  -- Neither the plans of bindings nor those of derivatives speak of outputs.
  have hBindings : ∀ p ∈ names.bound.flatMap (planBinding names t),
      ¬ (p.kind == EquationKind.output) = true := by
    intro p hp
    obtain ⟨b, -, hp⟩ := List.mem_flatMap.mp hp
    unfold planBinding at hp
    split at hp
    · rcases List.mem_cons.mp hp with rfl | hp
      · simp
      · exact hDerivatives .tangent b.value p hp
    · split at hp
      · exact absurd hp List.not_mem_nil
      · obtain rfl := List.mem_singleton.mp hp
        simp
  have hCotangents : ∀ p ∈ (names.bound.filter (·.ownsValue)).reverse.flatMap
      (fun b => planDerivatives t .cotangent b.value),
      ¬ (p.kind == EquationKind.output) = true := by
    intro p hp
    obtain ⟨b, -, hp⟩ := List.mem_flatMap.mp hp
    exact hDerivatives .cotangent b.value p hp
  rw [planProgram, List.filter_append, List.filter_append, List.filter_eq_nil_iff.mpr hBindings,
    List.filter_eq_nil_iff.mpr hCotangents, List.nil_append, List.nil_append, List.filter_map]
  exact congrArg _ (List.filter_eq_self.mpr fun _ _ => rfl)

/-- **The output equations of a program stand in the order of the outputs**, and are labelled
with what the tags of their values say. -/
theorem outputs_buildProgram {trace : Trace} {names : NameTable} {t : Threading}
    {options : Options} {program : Program}
    (h : buildProgram trace names t options = .ok program) :
    program.outputs.map (·.lhs.symbol) = trace.outputs.map (t.outputSymbol trace names) := by
  have hLabels := buildPlanned_labels h
  have hOutputs :=
    congrArg (fun ls => (ls.filter (·.1 == EquationKind.output)).map Prod.snd) hLabels
  simp only [List.filter_map, List.map_map] at hOutputs
  calc program.outputs.map (·.lhs.symbol)
      = ((planProgram trace names t).filter (·.kind == .output)).map (·.symbol) := hOutputs
    _ = trace.outputs.map (t.outputSymbol trace names) := by
      rw [outputs_planProgram, List.map_map]
      rfl

end ArrayEquations
