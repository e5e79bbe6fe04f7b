import ArrayEquations.CommandLine.Arguments
import ArrayEquations.CommandLine.Files
import ArrayEquations.Interchange.Import
import ArrayEquations.Provenance
import ArrayEquations.Script.Capture
import ArrayEquations.Transcription

/-!
# ArrayEquations — runs of the program

A run reads the options and the input, captures or imports a trace, differentiates it,
and writes what is asked for. The first step that fails ends the run. Faults of the
command line and of files end it with status 2, faults of the input with status 1.

## Main definitions

* `Outcome` — what a run leaves behind besides files.
* `emit` — what is written for a trace.
* `run` — a run with access to files in any monad.
-/

namespace ArrayEquations.CommandLine

/-- What a run leaves behind besides files. -/
structure Outcome where
  status : Nat
  output : String
  /-- The reports to the user, a text each. -/
  reports : List String
  deriving DecidableEq, Repr

/-- The end of a run that fails. -/
structure Abort where
  status : Nat
  reports : List String
  deriving DecidableEq, Repr

/-- A report of the program. -/
def reportText (text : String) : String := "tracetex: " ++ text

/-- A fault that ends a run. -/
def fault (status : Nat) (text : String) : Abort := ⟨status, [reportText ("error: " ++ text)]⟩

/-- A failed capture or differentiation. -/
def captureFault (message : String) : Abort := fault 1 (Failure.capture message).message

/-! ## The trace -/

/-- The options of a document, under those of the command line. -/
def optionsOf (a : Arguments) (config : Option (String × String)) : Except Abort Options := do
  let options ←
    match config with
    | none => pure {}
    | some (path, text) =>
      (Options.ofText text).mapError fun e => fault 2 s!"invalid config {path}: {e.message}"
  return { options with
    functionName := a.symbol.or options.functionName
    verbose := options.verbose || a.verbose }

/-- The trace of a function of a script. -/
def captureScript (a : Arguments) (source : String) : Except Abort Trace := do
  let s ← (Script.load source).mapError fun ds =>
    ⟨1, ds.map fun d => reportText (a.input ++ ": " ++ d.text)⟩
  let d ←
    match a.function with
    | some name =>
      match s.function? name with
      | some d => pure d
      | none => throw (fault 1 s!"no function `{name}` in script")
    | none =>
      match s.entry? with
      | some d => pure d
      | none => throw (fault 1 "script defines no function")
  (s.capture d d.exampleShapes).mapError fun e => captureFault e.message

/-- The trace of the input: a document if its name says so, and else a script. -/
def traceOf (a : Arguments) (source : String) : Except Abort Trace :=
  if hasExtension "json" a.input then
    (Trace.ofText source).mapError fun e => fault 1 (a.input ++ ": " ++ e.message)
  else captureScript a source

/-- The position that a text stands for: digits, with a plus sign or without. -/
def positionOf? (s : String) : Option Nat :=
  let digits :=
    match s.toList with
    | '+' :: rest => rest
    | cs => cs
  if digits.isEmpty || !digits.all Char.isDigit then none
  else
    let n := digitsValue digits
    if n < wordBound then some n else none

/-- The position of an argument by its name, or else by its number. -/
def argumentOf? (t : Trace) (s : String) : Option Nat :=
  (t.argumentPosition? s).or ((positionOf? s).filter (· < t.arguments.length))

/-- The trace after the differentiation that is asked for. -/
def differentiate (a : Arguments) (t : Trace) : Except Abort Trace :=
  match a.derivative with
  | none => .ok t
  | some (mode, names) => do
    let positions ← names.mapM fun name =>
      match argumentOf? t name with
      | some p => pure p
      | none => throw (fault 2 s!"`{name}` is not an argument of `{t.name}`")
    (t.differentiate mode positions).mapError fun e => captureFault e.message

/-! ## The output -/

/-- What is written for a trace, and the reports on the way. -/
def emit (a : Arguments) (options : Options) (t : Trace) : Except Abort (String × List String) :=
  match a.stage with
  | .graph => .ok (t.prettyText ++ "\n", [])
  | .buildInfo => .ok ((Provenance.ofTrace t options).text, [])
  | .expr => do
    let (s, reports) ← settle (t.run options .build)
    return ((s.program.map Program.text).getD "", reports)
  | .tex => do
    let (s, reports) ← settle (t.run options .render)
    let text := s.text.getD ""
    return ((if a.display then aligned text else text) ++ "\n", reports)
where
  /-- The state of a run that did not fail, with its reports. -/
  settle (r : Run) : Except Abort (Transcription × List String) :=
    let reports := r.state.diagnostics.map fun d => reportText d.text
    if r.failure.isSome then .error ⟨1, reports⟩ else .ok (r.state, reports)

/-! ## Runs -/

/-- The version of the program as it is told. -/
def versionText : String := s!"tracetex {Provenance.programVersion}\n"

/-- How the program is used. -/
def helpText : String :=
  "Usage: tracetex [OPTIONS] <INPUT>\n" ++
    String.join (Flag.all.map fun flag =>
      "  --" ++ flag.long ++ (if flag.takesValue then " <VALUE>" else "") ++ "\n")

section
variable {m : Type → Type} [Monad m]

/-- The content of a file; a failure is a fault of the command line. -/
def readFile (files : FileAccess m) (path before : String) : ExceptT Abort m String := do
  match ← files.read path with
  | .ok text => return text
  | .error e => throw (fault 2 s!"{before}{path}: {e}")

/-- Writes what a run has made: into a file, or to the output. -/
def deliver (files : FileAccess m) (a : Arguments) (text : String) (reports : List String) :
    m Outcome := do
  match a.output with
  | none => return ⟨0, text, reports⟩
  | some path =>
    match ← files.write path text with
    | .ok () => return ⟨0, "", reports⟩
    | .error e => return ⟨2, "", reports ++ [reportText s!"error: {path}: {e}"]⟩

/-- Makes what is asked for, and the reports on the way. -/
def make (files : FileAccess m) (a : Arguments) : ExceptT Abort m (String × List String) := do
  let config ← a.config.mapM fun path => do
    return (path, ← readFile files path "cannot read config ")
  let options ← optionsOf a config
  let source ← readFile files a.input ""
  let t ← traceOf a source
  let t ← differentiate a t
  emit a options t

/-- A run of the program. -/
def run (files : FileAccess m) (arguments : List String) : m Outcome := do
  match readArguments arguments with
  | .error .help => return ⟨0, helpText, []⟩
  | .error .version => return ⟨0, versionText, []⟩
  | .error (.usage e) => return ⟨2, "", [e.message]⟩
  | .ok a =>
    match ← (make files a).run with
    | .error e => return ⟨e.status, "", e.reports⟩
    | .ok (text, reports) => deliver files a text reports

end

end ArrayEquations.CommandLine
