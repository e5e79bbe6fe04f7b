import ArrayEquations.Derivative.Transform
import ArrayEquations.Equations.Build
import ArrayEquations.Expression.Latex
import ArrayEquations.Transcription.Pass

/-!
# ArrayEquations — transcription

From a trace to the text of its equations, pass by pass. A run ends early at a pass
that fails: only the building of equations can, on an operation that cannot be written
as a formula. The artifacts made before stay, and the failure is one of the
diagnostics.

## Main definitions

* `Transcription` — a trace with the artifacts made so far.
* `Transcription.runPass` — what one pass adds.
* `Run`, `Trace.run` — all passes up to one.
* `Trace.transcribe`, `TracedFunction.transcribe`, `Derived.transcribe` — the equations, or
  why there are none.
-/

namespace ArrayEquations

/-- A trace with the artifacts made so far. -/
structure Transcription where
  trace : Trace
  options : Options
  names : Option NameTable
  threading : Option Threading
  program : Option Program
  text : Option String
  diagnostics : List Diagnostic
  hasError : Bool

namespace Transcription

/-- The transcription before the first pass. -/
def start (trace : Trace) (options : Options) : Transcription :=
  ⟨trace, options, none, none, none, none, [], false⟩

/-- The symbol of the function: the one asked for, or its name. -/
def functionName (t : Transcription) : String := t.options.functionName.getD t.trace.name

/-- The transcription with the diagnostics of one more pass. -/
def report (t : Transcription) (ds : List Diagnostic) : Transcription :=
  { t with
    diagnostics := t.diagnostics ++ ds
    hasError := t.hasError || ds.any (·.isError) }

/-- The transcription with the artifacts of one more pass, and the diagnostics of that pass. A
pass that lacks an artifact makes none. -/
def runPass (t : Transcription) (p : Pass) :
    Except UnsupportedPrimitive (Transcription × List Diagnostic) :=
  match p with
  | .bind =>
    let (names, ds) := resolveNames t.functionName t.trace.arguments t.trace.bindings
    .ok ({ t with names := some names }, ds)
  | .thread =>
    match t.names with
    | none => .ok (t, [])
    | some names =>
      let (names, threading) := thread t.trace names t.options
      .ok ({ t with names := some names, threading := some threading }, [])
  | .build =>
    match t.names, t.threading with
    | some names, some threading => do
      let program ← buildProgram t.trace names threading t.options
      return ({ t with program := some program }, [])
    | _, _ => .ok (t, [])
  | .render =>
    match t.program with
    | none => .ok (t, [])
    | some program =>
      .ok ({ t with text := some (latexProgram t.options.lineSeparator program) }, [])

end Transcription

/-! ## Runs -/

/-- The passes done so far. -/
structure Run where
  state : Transcription
  /-- The passes with their diagnostics, in order. -/
  reports : List (Pass × List Diagnostic)
  /-- The pass that failed, if one did, and why. -/
  failure : Option (Pass × UnsupportedPrimitive)

/-- The run with one more pass, unless a pass has failed. -/
def Run.next (r : Run) (p : Pass) : Run :=
  if r.failure.isSome then r
  else
    match r.state.runPass p with
    | .ok (state, ds) => ⟨state.report ds, r.reports ++ [(p, ds)], none⟩
    | .error e =>
      let ds := [(Failure.unsupported e).diagnostic]
      ⟨r.state.report ds, r.reports ++ [(p, ds)], some (p, e)⟩

/-- All passes up to the one given. -/
def Trace.run (t : Trace) (options : Options) (terminal : Pass) : Run :=
  terminal.required.foldl Run.next ⟨.start t options, [], none⟩

/-! ## Results -/

/-- The equations of a function. -/
structure Transcript where
  text : String
  program : Program
  /-- The warnings. -/
  diagnostics : List Diagnostic

/-- The equations of a trace. -/
def Trace.transcribe (t : Trace) (options : Options) : Except UnsupportedPrimitive Transcript :=
  let r := t.run options .render
  match r.failure with
  | some (_, e) => .error e
  | none => .ok ⟨r.state.text.getD "", r.state.program.getD [], r.state.diagnostics⟩

/-- The equations of a function on arguments of the shapes given. -/
def TracedFunction.transcribe (f : TracedFunction) (shapes : List Shape) (options : Options) :
    Except Failure Transcript := do
  let t ← (f.capture shapes).mapError fun e => .capture e.message
  (t.transcribe options).mapError .unsupported

/-- The equations of a derivative on arguments of the shapes given. -/
def Derived.transcribe (d : Derived) (shapes : List Shape) (options : Options) :
    Except Failure Transcript := do
  let t ← (d.capture shapes).mapError fun e => .capture e.message
  (t.transcribe options).mapError .unsupported

end ArrayEquations
