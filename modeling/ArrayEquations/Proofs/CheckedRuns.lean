import ArrayEquations.Proofs.CheckedDerivatives
import ArrayEquations.Proofs.CheckedFormulas
import ArrayEquations.Proofs.CheckedImport
import ArrayEquations.Proofs.CheckedNaming
import ArrayEquations.Proofs.ForwardShapes
import ArrayEquations.Proofs.Obstacles

/-!
# ArrayEquations — no access fails

The checked computations come together here: recordings, imports, derivatives, symbols, formulas.
What is added are equations and the passes of a run. An equation may be asked for any value of a
graph, under any symbol and as often as one likes; a run plans its own ones, from the names and the
derivative equations that its first passes make.

So the library never reads past the end of a list, never writes there and never takes a larger
number from a smaller one: every step ends with a value or with one of its errors.

## Main definitions

* `Checked.equation`, `Checked.equations` — equations with every access checked.
* `Checked.runPass`, `Checked.run` — the passes of a run.
* `Transcription.Accessible` — what the passes rely on.

## Main results

* `Checked.equations_eq` — no access of any sequence of equations fails.
* `Checked.run_eq` — none fails in a run.
* `Trace.no_access_fails` — none fails on the way from a recording or a document to the text.
-/

namespace ArrayEquations

/-- Equations one after the other, whether each of them can be built or not. -/
def Builder.equations (b : Builder) :
    List EquationPlan → List (Except UnsupportedPrimitive Equation) × Builder
  | [] => ([], b)
  | p :: plans =>
    let (e, b) := b.equation p.kind p.symbol p.root
    let (es, b) := b.equations plans
    (e :: es, b)

namespace Checked

/-! ## Equations -/

/-- The right-hand side of the equation of a symbol with a value. -/
def rightHandSide (b : Builder) (symbol : Symbol) (root : ValueId) (scope : IndexScope)
    (axes : Axes) : Checked UnsupportedPrimitive SourcedExpr :=
  let expanded := Formula.build ⟨b.graph, b.names, some root⟩ scope root axes
  match b.names.symbol? root with
  | some own => if own = symbol then expanded else return reference root own axes
  | none => expanded

/-- The equation of a symbol with a value. -/
def equation (b : Builder) (kind : EquationKind) (symbol : Symbol) (root : ValueId) :
    Option (Except UnsupportedPrimitive Equation × Builder) := do
  let mark := b.scope.mark
  let shape ← shape? b.graph root
  let (axes, scope) := Builder.freeIndices shape b.scope
  match ← (rightHandSide b symbol root scope axes).run with
  | .error e => return (.error e, { b with scope := scope })
  | .ok rhs =>
    return (.ok ⟨kind, ⟨symbol, axes.indices⟩, rhs.expr⟩, { b with scope := scope.release mark })

/-- Equations one after the other, whether each of them can be built or not. -/
def equations (b : Builder) :
    List EquationPlan → Option (List (Except UnsupportedPrimitive Equation) × Builder)
  | [] => some ([], b)
  | p :: plans => do
    let (e, b) ← equation b p.kind p.symbol p.root
    let (es, b) ← equations b plans
    return (e :: es, b)

/-- Builds equations one after the other, up to the first that cannot be built. -/
def buildPlanned (b : Builder) : List EquationPlan → Checked UnsupportedPrimitive Program
  | [] => return []
  | p :: plans => do
    let (e, b) ← liftM (m := Option) (equation b p.kind p.symbol p.root)
    let e ← e
    let es ← buildPlanned b plans
    return e :: es

/-- All equations of a trace. -/
def buildProgram (trace : Trace) (names : NameTable) (t : Threading) (options : Options) :
    Checked UnsupportedPrimitive Program :=
  buildPlanned (Builder.new trace.graph names options.indexAlphabet) (planProgram trace names t)

section Equations

variable {b : Builder} {plans : List EquationPlan}

theorem matches_rightHandSide (hRegular : b.graph.Regular) {root : ValueId}
    (hRoot : root < b.graph.size) (symbol : Symbol) (scope : IndexScope) (axes : Axes) :
    Matches (rightHandSide b symbol root scope axes)
      (b.rightHandSide symbol root scope axes) := by
  have hExpanded := Formula.matches_build (x := ⟨b.graph, b.names, some root⟩) hRegular hRoot
    scope axes
  unfold rightHandSide Builder.rightHandSide
  -- The root is expanded unless it has a symbol other than the one on the left.
  cases b.names.symbol? root with
  | none => exact hExpanded
  | some own =>
    dsimp only
    split
    · exact hExpanded
    · exact matches_pure _

/-- **No access of an equation fails**, whatever value of the graph it is about. -/
theorem equation_eq (hRegular : b.graph.Regular) {root : ValueId} (hRoot : root < b.graph.size)
    (kind : EquationKind) (symbol : Symbol) :
    equation b kind symbol root = some (b.equation kind symbol root) := by
  have hRhs : (rightHandSide b symbol root
      (Builder.freeIndices (b.graph.shape root) b.scope).2
      (Builder.freeIndices (b.graph.shape root) b.scope).1).run = _ :=
    matches_rightHandSide hRegular hRoot symbol _ _
  unfold equation Builder.equation
  rw [shape?_eq hRoot]
  simp only [Option.bind_eq_bind, Option.bind_some, hRhs]
  generalize b.rightHandSide symbol root _ _ = result
  cases result <;> rfl

/-- **No access fails in any sequence of equations**, whether each of them can be built or not. -/
theorem equations_eq (hRegular : b.graph.Regular) (hRoots : ∀ p ∈ plans, p.root < b.graph.size) :
    equations b plans = some (b.equations plans) := by
  induction plans generalizing b with
  | nil => rfl
  | cons p plans ih =>
    -- An equation changes what is in scope, and the graph stays as it is.
    have hGraph := (b.equation_snd p.kind p.symbol p.root).1
    have hRest := ih (b := (b.equation p.kind p.symbol p.root).2) (hGraph ▸ hRegular)
      fun q hq => hGraph ▸ hRoots q (List.mem_cons_of_mem _ hq)
    rw [equations, equation_eq hRegular (hRoots p List.mem_cons_self)]
    show Option.bind (equations (b.equation p.kind p.symbol p.root).2 plans) _ = _
    rw [hRest]
    rfl

theorem matches_buildPlanned (hRegular : b.graph.Regular)
    (hRoots : ∀ p ∈ plans, p.root < b.graph.size) :
    Matches (buildPlanned b plans) (ArrayEquations.buildPlanned b plans) := by
  induction plans generalizing b with
  | nil => exact matches_pure []
  | cons p plans ih =>
    have hGraph := (b.equation_snd p.kind p.symbol p.root).1
    have hRest := ih (b := (b.equation p.kind p.symbol p.root).2) (hGraph ▸ hRegular)
      fun q hq => hGraph ▸ hRoots q (List.mem_cons_of_mem _ hq)
    rw [ArrayEquations.buildPlanned]
    refine matches_access (equation_eq hRegular (hRoots p List.mem_cons_self) p.kind p.symbol) ?_
    -- The first equation that cannot be built ends the list.
    revert hRest
    cases b.equation p.kind p.symbol p.root with
    | mk result b' =>
      cases result with
      | error e => exact fun _ => matches_throw_bind e _
      | ok e => exact fun hRest => hRest.bind fun es _ => matches_pure _

end Equations

/-! ## Runs -/

/-- The transcription with the artifacts of one more pass, and the diagnostics of that pass. -/
def runPass (t : Transcription) (p : Pass) :
    Checked UnsupportedPrimitive (Transcription × List Diagnostic) :=
  match p with
  | .bind => do
    let (names, ds) ← liftM (m := Option)
      (resolveNames t.functionName t.trace.arguments t.trace.bindings)
    return ({ t with names := some names }, ds)
  | .thread =>
    match t.names with
    | none => return (t, [])
    | some names => do
      let (names, threading) ← liftM (m := Option) (thread t.trace names t.options)
      return ({ t with names := some names, threading := some threading }, [])
  | .build =>
    match t.names, t.threading with
    | some names, some threading => do
      let program ← buildProgram t.trace names threading t.options
      return ({ t with program := some program }, [])
    | _, _ => return (t, [])
  | .render =>
    match t.program with
    | none => return (t, [])
    | some program =>
      return ({ t with text := some (latexProgram t.options.lineSeparator program) }, [])

/-- The run with one more pass, unless a pass has failed. -/
def next (r : Run) (p : Pass) : Option Run :=
  if r.failure.isSome then some r
  else do
    match ← (runPass r.state p).run with
    | .ok (state, ds) => return ⟨state.report ds, r.reports ++ [(p, ds)], none⟩
    | .error e =>
      let ds := [(Failure.unsupported e).diagnostic]
      return ⟨r.state.report ds, r.reports ++ [(p, ds)], some (p, e)⟩

/-- All passes up to the one given. -/
def run (t : Trace) (options : Options) (terminal : Pass) : Option Run :=
  terminal.required.foldlM next ⟨.start t options, [], none⟩

end Checked

/-- What the passes of a transcription rely on: the names and the derivative equations that are
there speak of values of the graph. -/
structure Transcription.Accessible (t : Transcription) : Prop where
  trace : t.trace.Accessible
  bound_lt : ∀ names ∈ t.names, ∀ b ∈ names.bound, b.value < t.trace.graph.size
  derivative_lt : ∀ threading ∈ t.threading, ∀ d ∈ threading.derivatives,
    d.value < t.trace.graph.size

namespace Transcription.Accessible

variable {t t' : Transcription} {ds : List Diagnostic}

theorem start {d : Trace} (h : d.Accessible) (options : Options) : (start d options).Accessible :=
  ⟨h, fun _ hNames => absurd hNames (by simp [Transcription.start]),
    fun _ hThreading => absurd hThreading (by simp [Transcription.start])⟩

theorem report (h : t.Accessible) (ds : List Diagnostic) : (t.report ds).Accessible :=
  ⟨h.trace, h.bound_lt, h.derivative_lt⟩

/-- What equations are planned for are values of the graph. -/
theorem root_lt (h : t.Accessible) {names : NameTable} {threading : Threading}
    (hNames : names ∈ t.names) (hThreading : threading ∈ t.threading) :
    ∀ p ∈ planProgram t.trace names threading, p.root < t.trace.graph.size := by
  intro p hp
  rcases root_of_mem_planProgram hp with hBound | ⟨d, hd, hRoot⟩ | hOutput
  · obtain ⟨b, hb, hValue⟩ := List.mem_map.mp hBound
    exact hValue ▸ h.bound_lt names hNames b hb
  · exact hRoot ▸ h.derivative_lt threading hThreading d hd
  · exact h.trace.readable.output_lt p.root hOutput

/-- **No access of a pass fails.** -/
theorem matches_runPass (h : t.Accessible) (p : Pass) :
    Checked.Matches (Checked.runPass t p) (t.runPass p) := by
  unfold Checked.runPass runPass
  cases p with
  | bind =>
    exact Checked.matches_access (Checked.resolveNames_eq _ _ _) (Checked.matches_pure _)
  | thread =>
    cases hNames : t.names with
    | none => exact Checked.matches_pure _
    | some names =>
      -- The names that are there are the ones whose values are marked.
      refine Checked.matches_access (Checked.thread_eq h.trace.regular.ordered h.trace.primal_lt
        h.trace.readable.tag_lt (h.bound_lt names hNames) t.options) ?_
      exact Checked.matches_pure _
  | build =>
    cases hNames : t.names with
    | none => exact Checked.matches_pure _
    | some names =>
      cases hThreading : t.threading with
      | none => exact Checked.matches_pure _
      | some threading =>
        refine Checked.Matches.bind ?_ fun program _ => Checked.matches_pure _
        exact Checked.matches_buildPlanned (b := Builder.new t.trace.graph names _)
          h.trace.regular (h.root_lt hNames hThreading)
  | render =>
    cases t.program with
    | none => exact Checked.matches_pure _
    | some program => exact Checked.matches_pure _

/-- The passes keep what they rely on: names are those of bindings, and derivative equations are
about the values of tags. -/
theorem runPass (h : t.Accessible) {p : Pass} (hRun : t.runPass p = .ok (t', ds)) :
    t'.Accessible := by
  unfold Transcription.runPass at hRun
  cases p with
  | bind =>
    obtain ⟨rfl, -⟩ := Prod.mk.inj (Except.ok.inj hRun)
    refine ⟨h.trace, ?_, h.derivative_lt⟩
    -- The names that are bound stand for the bindings one by one.
    rintro names hNames b hb
    obtain rfl := Option.some.inj hNames
    have hValue : b.value ∈ t.trace.bindings.map (·.value) :=
      (resolvedNames t.functionName t.trace.arguments t.trace.bindings).values ▸
        List.mem_map.mpr ⟨b, hb, rfl⟩
    obtain ⟨binding, hBinding, hEq⟩ := List.mem_map.mp hValue
    exact hEq ▸ h.trace.readable.binding_lt binding hBinding
  | thread =>
    cases hNames : t.names with
    | none =>
      rw [hNames] at hRun
      obtain ⟨rfl, -⟩ := Prod.mk.inj (Except.ok.inj hRun)
      exact h
    | some names =>
      rw [hNames] at hRun
      obtain ⟨rfl, -⟩ := Prod.mk.inj (Except.ok.inj hRun)
      refine ⟨h.trace, ?_, ?_⟩
      · rintro names' hNames' b hb
        obtain rfl := Option.some.inj hNames'
        -- Tags and left-over arguments give symbols, but bind no names.
        have hSame : (thread t.trace names t.options).1.bound = names.bound :=
          bound_nameLeftovers.trans (NameTable.keeps_foldl NameTable.bound bound_nameTag _ _)
        exact h.bound_lt names hNames b (hSame ▸ hb)
      · rintro threading hThreading d hd
        obtain rfl := Option.some.inj hThreading
        obtain ⟨tag, hTag, hValue⟩ := tag_of_mem_derivativeEquations hd
        exact hValue ▸ h.trace.readable.tag_lt tag hTag
  | build =>
    dsimp only at hRun
    split at hRun
    · obtain ⟨program, -, hEq⟩ := bind_eq_ok hRun
      obtain ⟨rfl, -⟩ := Prod.mk.inj (Except.ok.inj hEq)
      exact ⟨h.trace, h.bound_lt, h.derivative_lt⟩
    · obtain ⟨rfl, -⟩ := Prod.mk.inj (Except.ok.inj hRun)
      exact h
  | render =>
    dsimp only at hRun
    split at hRun
    · obtain ⟨rfl, -⟩ := Prod.mk.inj (Except.ok.inj hRun)
      exact h
    · obtain ⟨rfl, -⟩ := Prod.mk.inj (Except.ok.inj hRun)
      exact ⟨h.trace, h.bound_lt, h.derivative_lt⟩

end Transcription.Accessible

namespace Checked

/-- One more pass, which keeps what the passes rely on. -/
theorem next_eq {r : Run} (h : r.state.Accessible) (p : Pass) :
    next r p = some (r.next p) ∧ (r.next p).state.Accessible := by
  have hPass : ExceptT.run (runPass r.state p) = some (r.state.runPass p) := h.matches_runPass p
  unfold next Run.next
  by_cases hFailed : r.failure.isSome = true
  · -- After a failure no pass is done.
    rw [if_pos hFailed, if_pos hFailed]
    exact ⟨rfl, h⟩
  · rw [if_neg hFailed, if_neg hFailed, hPass]
    cases hRun : r.state.runPass p with
    | ok made => exact ⟨rfl, (h.runPass hRun).report _⟩
    | error e => exact ⟨rfl, h.report _⟩

/-- **No access of a run fails**, up to any pass and with any options. -/
theorem run_eq {d : Trace} (h : d.Accessible) (options : Options) (terminal : Pass) :
    run d options terminal = some (d.run options terminal) := by
  -- The passes that a run has begun with keep what the later ones rely on.
  suffices hPasses : ∀ (passes : List Pass) (r : Run), r.state.Accessible →
      passes.foldlM next r = some (passes.foldl Run.next r) from
    hPasses terminal.required _ (.start h options)
  intro passes
  induction passes with
  | nil => exact fun _ _ => rfl
  | cons p passes ih =>
    intro r hr
    obtain ⟨hNext, hAccessible⟩ := next_eq hr p
    rw [List.foldlM_cons, hNext]
    exact ih (r.next p) hAccessible

end Checked

/-! ## From recordings and documents to texts -/

namespace Trace

/-- **No access fails.** Every call of a recording on values of its own ends with a result or leaves
an error behind, also after an earlier error. Every document is either imported or refused. A trace
that was imported is differentiated or refused, in any mode and with respect to any positions; and
from the trace and from each of its derivatives, a run ends up to any pass and with any options, and
so does any sequence of equations about values of the graph. All these computations read and write
lists within their bounds and subtract no larger number, and the results are the ones they have
without these checks. -/
theorem no_access_fails :
    (∀ (r r' : Recorder) (calls : List RecordingCall), r.after? calls = some r' →
      Checked.recordAll calls r = some ((), r')) ∧
    (∀ text, Checked.Matches (Checked.ofText text) (ofText text)) ∧
    ∀ text t, ofText text = .ok t →
      (∀ mode positions,
        Checked.Matches (Checked.differentiate t mode positions) (t.differentiate mode positions)) ∧
      ∀ d, (d = t ∨ ∃ mode positions, t.differentiate mode positions = .ok d) →
        (∀ options terminal,
          Checked.run d options terminal = some (d.run options terminal)) ∧
        ∀ names alphabet plans, (∀ p ∈ plans, p.root < d.graph.size) →
          Checked.equations (.new d.graph names alphabet) plans =
            some ((Builder.new d.graph names alphabet).equations plans) := by
  -- Recordings and imports need nothing but the calls and the text.
  refine ⟨fun r r' calls => Checked.recordAll_eq, Checked.matches_ofText, ?_⟩
  intro text t hText
  -- What was imported has passed all checks, so its graph is well-formed.
  have hImportable := importable_of_ofText hText
  refine ⟨Checked.matches_differentiate hImportable.wellFormed, ?_⟩
  intro d hDerived
  -- A derivative need not be well-formed, but it keeps what its equations rely on.
  have hAccessible : d.Accessible := by
    rcases hDerived with rfl | ⟨mode, positions, hDerivative⟩
    · exact hImportable.accessible
    · exact hImportable.accessible_of_differentiate hDerivative
  refine ⟨Checked.run_eq hAccessible, ?_⟩
  -- Equations that nobody planned rely on the graph alone.
  intro names alphabet plans hRoots
  exact Checked.equations_eq hAccessible.regular hRoots

/-- A recording goes on after a sum over an axis that is not there, and the total of a shifted
vector is differentiated and transcribed. -/
theorem no_access_fails_shiftedTotal :
    (∃ r, Recorder.empty.after? [.argument [3] none, .sum 0 [1], .arith .add 0 1] = some r ∧
      r.error.isSome = true ∧
      Checked.recordAll [.argument [3] none, .sum 0 [1], .arith .add 0 1] .empty =
        some ((), r)) ∧
    (∃ d, shiftedTotal.differentiate .grad [0] = .ok d ∧
      Checked.differentiate shiftedTotal .grad [0] = some (.ok d) ∧
      Checked.run d {} .render = some (d.run {} .render)) ∧
    Checked.equations (.new shiftedTotal.graph (shiftedTotal.table {}) "ij")
        [⟨.output, .plain "f", 3⟩, ⟨.binding, .plain "s", 2⟩] =
      some ((Builder.new shiftedTotal.graph (shiftedTotal.table {}) "ij").equations
        [⟨.output, .plain "f", 3⟩, ⟨.binding, .plain "s", 2⟩]) := by
  obtain ⟨hRecordings, -, hTraces⟩ := no_access_fails
  obtain ⟨text, hText⟩ := shiftedTotal_imported
  obtain ⟨hDerivatives, hRuns⟩ := hTraces text shiftedTotal hText
  refine ⟨?_, ?_, (hRuns shiftedTotal (Or.inl rfl)).2 _ _ _ (by decide)⟩
  · obtain ⟨r, hAfter, hFailed⟩ := (Option.any_eq_true _ _).mp (show (Recorder.empty.after?
      [.argument [3] none, .sum 0 [1], .arith .add 0 1]).any (·.error.isSome) = true by decide)
    exact ⟨r, hAfter, hFailed, hRecordings _ r _ hAfter⟩
  · -- The gradient exists, which is decided without writing it out.
    have hIsOk : (shiftedTotal.differentiate .grad [0]).toOption.isSome = true := by decide
    cases hDerivative : shiftedTotal.differentiate .grad [0] with
    | error e =>
      rw [hDerivative] at hIsOk
      exact absurd hIsOk Bool.false_ne_true
    | ok d =>
      exact ⟨d, rfl, hDerivative ▸ hDerivatives .grad [0],
        (hRuns d (Or.inr ⟨.grad, [0], hDerivative⟩)).1 {} .render⟩

end Trace

end ArrayEquations
