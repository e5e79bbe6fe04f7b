import ArrayEquations.Proofs.DefinedSymbols
import ArrayEquations.Proofs.ExtendedFormulas
import ArrayEquations.Proofs.PrimalSymbols

/-!
# ArrayEquations — differentiation leaves the equations of the function as they are

The program of a derived trace has the equations of the bindings that the program of the trace
has, with the same symbols, indices and formulas. They are planned from the table of the bindings,
which a derivative does not change, and built from values whose symbols it does not change. A
forward derivative also keeps the outputs of the function in front, and with them their
equations.

## Main results

* `bindings_planProgram_eq` — equations of bindings are planned from the symbols of bound values.
* `Trace.outputSymbol_of_forward` — the outputs of the function keep their labels.
* `Trace.primal_equations` — the equations of bindings stay, and in front those of outputs.
-/

namespace ArrayEquations

/-! ## Plans of bindings -/

/-- Only the first plan of a binding is about the binding itself. -/
private theorem filter_planBinding {names names' : NameTable} {t t' : Threading} {b : BoundName}
    (h : names'.symbol? b.value = names.symbol? b.value) :
    (planBinding names' t' b).filter (·.kind == .binding) =
      (planBinding names t b).filter (·.kind == .binding) := by
  have hDerivatives : ∀ (t : Threading) (kind : DerivativeKind) (v : ValueId),
      (planDerivatives t kind v).filter (·.kind == .binding) = [] := by
    intro t kind v
    rw [List.filter_eq_nil_iff]
    intro p hp
    obtain ⟨d, -, rfl⟩ := List.mem_map.mp hp
    simp
  unfold planBinding
  split
  · rw [List.filter_cons, List.filter_cons, hDerivatives, hDerivatives]
  · rw [h]

/-- **The equations of bindings are planned from the symbols of the bound values.** -/
theorem bindings_planProgram_eq {trace trace' : Trace} {names names' : NameTable}
    {t t' : Threading} (hBound : names'.bound = names.bound)
    (hSymbol : ∀ b ∈ names.bound, names'.symbol? b.value = names.symbol? b.value) :
    (planProgram trace' names' t').filter (·.kind == .binding) =
      (planProgram trace names t).filter (·.kind == .binding) := by
  have hOnly : ∀ (trace : Trace) (names : NameTable) (t : Threading),
      (planProgram trace names t).filter (·.kind == .binding) =
        names.bound.flatMap fun b => (planBinding names t b).filter (·.kind == .binding) := by
    intro trace names t
    -- Plans of cotangents and of outputs are of other kinds.
    have hCotangents : ((names.bound.filter (·.ownsValue)).reverse.flatMap
        fun b => planDerivatives t .cotangent b.value).filter (·.kind == .binding) = [] := by
      rw [List.filter_eq_nil_iff]
      intro p hp
      obtain ⟨b, -, hp⟩ := List.mem_flatMap.mp hp
      obtain ⟨d, -, rfl⟩ := List.mem_map.mp hp
      simp
    have hOutputs : (trace.outputs.map fun o =>
        (⟨.output, t.outputSymbol trace names o, o⟩ : EquationPlan)).filter
          (·.kind == .binding) = [] := by
      rw [List.filter_eq_nil_iff]
      intro p hp
      obtain ⟨o, -, rfl⟩ := List.mem_map.mp hp
      simp
    rw [planProgram, List.filter_append, List.filter_append, hCotangents, hOutputs,
      List.append_nil, List.append_nil, List.filter_flatMap]
  rw [hOnly, hOnly, hBound]
  exact List.flatMap_congr fun b hb => filter_planBinding (hSymbol b hb)

/-! ## Labels of outputs -/

namespace Trace

variable {t d : Trace} {options : Options}

theorem lastTagOf?_eq_none {v : ValueId} (h : ∀ tag ∈ d.tags, tag.value ≠ v) :
    d.lastTagOf? v = none := by
  rw [lastTagOf?, List.find?_eq_none]
  intro tag hTag
  simpa using h tag (List.mem_reverse.mp hTag)

/-- Without cotangents only outputs stand for the function. -/
private theorem functionPrimals_eq (hKind : ∀ tag ∈ d.tags, tag.kind = .tangent) :
    functionPrimals d = (d.outputs.filter fun o => (d.lastTagOf? o).isNone).eraseDups := by
  have hSeeds : d.tags.filter (isSeedTag d.graph) = [] := by
    rw [List.filter_eq_nil_iff]
    intro tag hTag
    simp [isSeedTag, hKind tag hTag]
  rw [functionPrimals, hSeeds, List.map_nil, List.append_nil]

/-- Without tags all outputs stand for the function. -/
theorem functionPrimals_of_tags_eq_nil (hTags : t.tags = []) :
    functionPrimals t = t.outputs.eraseDups := by
  rw [functionPrimals_eq (by simp [hTags])]
  congr 1
  rw [List.filter_eq_self]
  intro o _
  simp [lastTagOf?, hTags]

variable {wrt seeds tangents : List ValueId} {carried : List DerivativeTag}

/-- The outputs that stand for the function are those of the trace, for the others are tangents. -/
theorem DerivesForward.functionPrimals_eq (ht : t.WellFormed)
    (h : t.DerivesForward d wrt seeds tangents carried) (hTags : t.tags = []) :
    functionPrimals d = functionPrimals t := by
  have hNew : ∀ tag ∈ d.tags, tag.kind = .tangent ∧ t.graph.size ≤ tag.value :=
    fun tag hTag => h.new_of_mem_tags hTags hTag
  have hOld : t.outputs.filter (fun o => (d.lastTagOf? o).isNone) = t.outputs := by
    rw [List.filter_eq_self]
    intro o ho
    have hNone : d.lastTagOf? o = none := lastTagOf?_eq_none fun tag hTag hEq =>
      absurd (ht.output_lt o ho) (Nat.not_lt.mpr (hEq ▸ (hNew tag hTag).2))
    rw [hNone]
    rfl
  have hTangents : tangents.filter (fun o => (d.lastTagOf? o).isNone) = [] := by
    rw [List.filter_eq_nil_iff]
    intro w hw hNone
    -- A tangent is tagged with its output.
    obtain ⟨o, hNew⟩ := exists_tag_of_value h.tangents_length.symm hw
    have hTag : ⟨.tangent, o, w⟩ ∈ d.tags := (h.recorder.mem_tags hTags).mpr
      (List.mem_append_right _ (List.mem_append_right _ hNew))
    rw [lastTagOf?, Option.isNone_iff_eq_none, List.find?_eq_none] at hNone
    exact hNone _ (List.mem_reverse.mpr hTag) (beq_self_eq_true _)
  rw [Trace.functionPrimals_eq fun tag hTag => (hNew tag hTag).1,
    functionPrimals_of_tags_eq_nil hTags, h.outputs, List.filter_append, hOld, hTangents,
    List.append_nil]

/-- **The outputs of the function keep their labels in a forward derivative.** -/
theorem outputSymbol_of_forward (ht : t.WellFormed)
    (h : t.DerivesForward d wrt seeds tangents carried) (hTags : t.tags = []) {o : ValueId}
    (ho : o ∈ t.outputs) :
    (d.threaded options).2.outputSymbol d (d.threaded options).1 o =
      (t.threaded options).2.outputSymbol t (t.threaded options).1 o := by
  have hNone : d.lastTagOf? o = none := lastTagOf?_eq_none fun tag hTag hEq =>
    absurd (ht.output_lt o ho) (Nat.not_lt.mpr (hEq ▸ (h.new_of_mem_tags hTags hTag).2))
  have hNone' : t.lastTagOf? o = none := lastTagOf?_eq_none (by simp [hTags])
  have hTable : d.table options = t.table options :=
    table_eq_of_seeds h.name h.recorder.arguments h.recorder.bindings
  have hRoles : d.roles options = t.roles options := by
    rw [roles, roles, h.functionPrimals_eq ht hTags, hTable]
  -- An output without a tag is labelled as the function.
  have hLabel : ∀ x : Trace, x.lastTagOf? o = none →
      (x.threaded options).2.outputSymbol x (x.threaded options).1 o =
        ((x.roles options).functionSymbol? o).getD (x.roles options).function := by
    intro x hx
    rw [Threading.outputSymbol, hx]
    rfl
  rw [hLabel d hNone, hLabel t hNone', hRoles]

/-! ## Programs -/

/-- The equations of one kind are those that are planned of that kind. -/
private theorem filter_equations {b : Builder} (hLetters : b.scope.letters ≠ [])
    {plans : List EquationPlan} {program : Program} (h : buildPlanned b plans = .ok program)
    (kind : EquationKind) :
    List.Forall₂ (fun p e => (b.equation p.kind p.symbol p.root).1 = .ok e)
      (plans.filter (·.kind == kind)) (program.filter (·.kind == kind)) := by
  refine List.rel_filter ?_ (buildPlanned_each hLetters h)
  intro p e hOne
  simp only [(Builder.equation_label hOne).1]

/-- The derived trace is one that goes on with the trace and spares its values. -/
private structure GoesOn (t d : Trace) (options : Options) : Prop where
  derives : ∃ seeds tagged, t.recorder.Derives d.recorder seeds tagged
  name : d.name = t.name
  spares : d.Spares options t.graph.size

private theorem GoesOn.of_forward (hTags : t.tags = [])
    (h : t.DerivesForward d wrt seeds tangents carried) : GoesOn t d options :=
  ⟨⟨_, _, h.recorder⟩, h.name, h.spares hTags⟩

private theorem GoesOn.of_backward (ht : t.WellFormed) (hTags : t.tags = []) {starts : List ValueId}
    (h : t.DerivesBackward d wrt seeds starts carried) : GoesOn t d options :=
  ⟨⟨_, _, h.recorder⟩, h.name, h.spares ht hTags⟩

/-- Equations of values of the trace are built alike for both traces. -/
private theorem GoesOn.builder_extends (h : GoesOn t d options) (ht : t.IsRecorded)
    (hTags : t.tags = []) :
    Builder.Extends (Builder.new t.graph (t.threaded options).1 options.indexAlphabet)
      (Builder.new d.graph (d.threaded options).1 options.indexAlphabet) := by
  obtain ⟨seeds, tagged, hDerives⟩ := h.derives
  have hWellFormed := ht.importable.wellFormed
  have hPrimal := ht.derivative_eq_false hTags
  refine ⟨hDerives.graph, ?_, by simp only [Builder.new]⟩
  intro v hv
  have hDerived := symbol?_threaded_of_lt hWellFormed hPrimal hDerives h.name h.spares hv
  have hOwn : (t.threaded options).1.symbol? v = (t.table options).symbol? v :=
    symbol?_threaded_of_lt hWellFormed hPrimal (Recorder.Derives.refl t.recorder) rfl
      (spares_of_tags_eq_nil hTags _) hv
  exact hDerived.trans hOwn.symm

variable {program program' : Program}

/-- Equations that are planned alike for both traces, about values of the trace, are the same. -/
private theorem GoesOn.equations_eq (h : GoesOn t d options) (ht : t.IsRecorded)
    (hTags : t.tags = []) {plans : List EquationPlan} {es es' : List Equation}
    (hPlans : ∀ p ∈ plans, p ∈ planProgram t (t.threaded options).1 (t.threaded options).2)
    (hEach : List.Forall₂ (fun p e => ((Builder.new t.graph (t.threaded options).1
      options.indexAlphabet).equation p.kind p.symbol p.root).1 = .ok e) plans es)
    (hEach' : List.Forall₂ (fun p e => ((Builder.new d.graph (d.threaded options).1
      options.indexAlphabet).equation p.kind p.symbol p.root).1 = .ok e) plans es') :
    es' = es :=
  (h.builder_extends ht hTags).equations_eq ht.importable.wellFormed.graph.founded
    (fun p hp => ht.importable.readable.root_lt (hPlans p hp)) hEach hEach'

/-- The equations of bindings are the same. -/
private theorem GoesOn.bindings_eq (h : GoesOn t d options) (ht : t.IsRecorded)
    (hTags : t.tags = [])
    (hProgram : buildProgram t (t.threaded options).1 (t.threaded options).2 options = .ok program)
    (hProgram' :
      buildProgram d (d.threaded options).1 (d.threaded options).2 options = .ok program') :
    program'.filter (·.kind == .binding) = program.filter (·.kind == .binding) := by
  have hEach := filter_equations (alphabetLetters_ne_nil _) hProgram .binding
  have hEach' := filter_equations (alphabetLetters_ne_nil _) hProgram' .binding
  obtain ⟨seeds, tagged, hDerives⟩ := h.derives
  -- Both tables have the same bindings, about values of the trace, with the same symbols.
  have hBound : (d.threaded options).1.bound = (t.threaded options).1.bound := by
    rw [bound_threaded, bound_threaded,
      table_eq_of_seeds h.name hDerives.arguments hDerives.bindings]
  have hSymbol : ∀ b ∈ (t.threaded options).1.bound,
      (d.threaded options).1.symbol? b.value = (t.threaded options).1.symbol? b.value := by
    intro b hb
    rw [bound_threaded] at hb
    exact (h.builder_extends ht hTags).symbol? b.value (ht.importable.readable.bound_lt hb)
  rw [bindings_planProgram_eq hBound hSymbol] at hEach'
  exact h.equations_eq ht hTags (fun p hp => (List.mem_filter.mp hp).1) hEach hEach'

/-- In a forward derivative the equations of the outputs stay in front. -/
private theorem outputs_eq_of_forward (ht : t.IsRecorded) (hTags : t.tags = [])
    (h : t.DerivesForward d wrt seeds tangents carried)
    (hProgram : buildProgram t (t.threaded options).1 (t.threaded options).2 options = .ok program)
    (hProgram' :
      buildProgram d (d.threaded options).1 (d.threaded options).2 options = .ok program') :
    program'.outputs.take t.outputs.length = program.outputs := by
  have hEach := filter_equations (alphabetLetters_ne_nil _) hProgram .output
  have hEach' := List.forall₂_take t.outputs.length
    (filter_equations (alphabetLetters_ne_nil _) hProgram' .output)
  -- The first plans are those for the outputs of the trace, under the same labels.
  have hFront : ((planProgram d (d.threaded options).1 (d.threaded options).2).filter
      (·.kind == .output)).take t.outputs.length =
        (planProgram t (t.threaded options).1 (t.threaded options).2).filter
          (·.kind == .output) := by
    rw [outputs_planProgram, outputs_planProgram, h.outputs, List.map_append,
      List.take_left' (List.length_map _)]
    apply List.map_congr_left
    intro o ho
    rw [outputSymbol_of_forward ht.importable.wellFormed h hTags ho]
  rw [hFront] at hEach'
  exact (GoesOn.of_forward hTags h).equations_eq ht hTags (fun p hp => (List.mem_filter.mp hp).1)
    hEach hEach'

/-- **Differentiation leaves the equations of the function as they are.** Take a recorded trace
without tags and a derivative of it in any mode. If both programs can be built, with the same
options, then they have the same equations of bindings, in the same order. The program of the
trace has one equation for each output, and that of a forward derivative has these equations in
front of its own. -/
theorem primal_equations (ht : t.IsRecorded) (hTags : t.tags = []) {mode : Mode}
    {positions : List Nat} (hDerivative : t.differentiate mode positions = .ok d)
    (hProgram : (t.run options .build).state.program = some program)
    (hProgram' : (d.run options .build).state.program = some program') :
    program'.filter (·.kind == .binding) = program.filter (·.kind == .binding) ∧
      program.outputs.length = t.outputs.length ∧
      (mode = .jvp → program'.outputs.take t.outputs.length = program.outputs) := by
  have hWellFormed := ht.importable.wellFormed
  have hCount : program.outputs.length = t.outputs.length := by
    simpa using congrArg List.length (outputs_buildProgram (program_run hProgram))
  obtain ⟨wrt, hSelect⟩ := exists_selectArguments_of_differentiate hDerivative
  by_cases hMode : mode = .jvp
  · subst hMode
    obtain ⟨seeds, tangents, carried, h⟩ := derivesForward hWellFormed hSelect hDerivative
    exact ⟨(GoesOn.of_forward hTags h).bindings_eq ht hTags (program_run hProgram)
      (program_run hProgram'), hCount, fun _ => outputs_eq_of_forward ht hTags h
        (program_run hProgram) (program_run hProgram')⟩
  · obtain ⟨seeds, starts, carried, h⟩ := derivesBackward hWellFormed hMode hSelect hDerivative
    exact ⟨(GoesOn.of_backward hWellFormed hTags h).bindings_eq ht hTags (program_run hProgram)
      (program_run hProgram'), hCount, fun hForward => absurd hForward hMode⟩

/-- The sine of a number times another number, which is named. -/
def sineProductCalls : List RecordingCall :=
  [.argument [] (some "x"), .argument [] (some "y"), .call .sin 0, .arith .mul 2 1,
    .named 3 "w" none]

/-- The trace of these calls. -/
def sineProduct : Trace where
  name := "f"
  graph := ⟨#[⟨.leaf, []⟩, ⟨.leaf, []⟩, ⟨.op (.call .sin) [0], []⟩,
    ⟨.op (.arith .mul) [2, 1], []⟩]⟩
  arguments := [⟨0, some "x", false⟩, ⟨1, some "y", false⟩]
  bindings := [⟨0, "w", 3, none⟩]
  tags := []
  outputs := [3]

/-- Its gradient with respect to the second number is the sine itself, a value of the trace that
has no symbol. -/
def sineProductGradient : Trace :=
  { sineProduct with
    graph := sineProduct.graph.push ⟨.literal 1, []⟩
    tags := [⟨.cotangent, 3, 4⟩, ⟨.cotangent, 1, 2⟩]
    outputs := [2] }

/-- Its tangent. -/
def sineProductTangent : Trace :=
  { sineProduct with
    graph := (sineProduct.graph.push ⟨.leaf, []⟩).push ⟨.op (.arith .mul) [2, 4], []⟩
    arguments := sineProduct.arguments ++ [⟨4, none, true⟩]
    tags := [⟨.tangent, 1, 4⟩, ⟨.tangent, 3, 5⟩]
    outputs := [3, 5] }

/-- The equation of `w` has the sine written out in all three programs. -/
theorem primal_equations_sineProduct :
    ∃ program gradient tangent : Program,
      (sineProduct.run {} .build).state.program = some program ∧
      (sineProductGradient.run {} .build).state.program = some gradient ∧
      (sineProductTangent.run {} .build).state.program = some tangent ∧
      gradient.filter (·.kind == .binding) = program.filter (·.kind == .binding) ∧
      tangent.filter (·.kind == .binding) = program.filter (·.kind == .binding) ∧
      program.outputs.length = 1 ∧ tangent.outputs.take 1 = program.outputs := by
  have hRecorded : sineProduct.IsRecorded := by
    exact ⟨sineProductCalls, ⟨sineProduct.graph, sineProduct.arguments, sineProduct.bindings, [],
      none⟩, "f", [3], by decide, by decide⟩
  have hGradient : sineProduct.differentiate .grad [1] = .ok sineProductGradient := by
    with_unfolding_all rfl
  have hTangent : sineProduct.differentiate .jvp [1] = .ok sineProductTangent := by decide
  -- All three programs are built, so that the theorem compares programs that exist.
  obtain ⟨program, hProgram⟩ := Option.isSome_iff_exists.mp
    (show (sineProduct.run {} .build).state.program.isSome = true by decide +kernel)
  obtain ⟨gradient, hProgramG⟩ := Option.isSome_iff_exists.mp
    (show (sineProductGradient.run {} .build).state.program.isSome = true by decide +kernel)
  obtain ⟨tangent, hProgramT⟩ := Option.isSome_iff_exists.mp
    (show (sineProductTangent.run {} .build).state.program.isSome = true by decide +kernel)
  obtain ⟨hBindings, -⟩ := primal_equations hRecorded rfl hGradient hProgram hProgramG
  obtain ⟨hBindings', hCount, hOutputs⟩ :=
    primal_equations hRecorded rfl hTangent hProgram hProgramT
  exact ⟨program, gradient, tangent, hProgram, hProgramG, hProgramT, hBindings, hBindings',
    hCount, hOutputs rfl⟩

end Trace

end ArrayEquations
