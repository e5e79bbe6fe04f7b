import ArrayEquations.Graph

/-!
# ArrayEquations — diagnostics

What is reported to the user: errors that end a transcription, and warnings that do
not. A diagnostic may have a stable code, a hint, a place in a script and the values it
is about.

## Main definitions

* `Span` — a range of bytes in a source.
* `Diagnostic` — a report, and `Diagnostic.text`, its lines.
* `UnsupportedPrimitive` — an operation that cannot be written as a formula.
* `Failure` — why a transcription fails.
-/

namespace ArrayEquations

/-- A range of bytes in a source, its end excluded. -/
structure Span where
  start : Nat
  stop : Nat
  deriving DecidableEq, Repr

/-- A range as it is written: `3..9`. -/
def Span.text (s : Span) : String := s!"{s.start}..{s.stop}"

/-- The stable codes of diagnostics. -/
inductive DiagnosticCode where
  | captureFailed
  | unsupportedPrimitive
  | scriptSyntax
  | duplicateDefinition
  | ambiguousName
  deriving DecidableEq, Repr

namespace DiagnosticCode

/-- The spelling of a code. -/
def text : DiagnosticCode → String
  | .captureFailed => "E0001"
  | .unsupportedPrimitive => "E0100"
  | .scriptSyntax => "E0200"
  | .duplicateDefinition => "E0201"
  | .ambiguousName => "W0100"

/-- All codes. -/
def all : List DiagnosticCode :=
  [.captureFailed, .unsupportedPrimitive, .scriptSyntax, .duplicateDefinition, .ambiguousName]

/-- The code of a spelling. -/
def ofText? (s : String) : Option DiagnosticCode := all.find? (·.text == s)

end DiagnosticCode

/-- How grave a diagnostic is. -/
inductive Severity where
  | error
  | warning
  deriving DecidableEq, Repr

/-- The spelling of a severity. -/
def Severity.name : Severity → String
  | .error => "error"
  | .warning => "warning"

/-- A report to the user. -/
structure Diagnostic where
  code : Option DiagnosticCode
  severity : Severity
  message : String
  hint : Option String
  span : Option Span
  values : List ValueId
  deriving DecidableEq, Repr

namespace Diagnostic

/-- Whether the report is of an error. -/
def isError (d : Diagnostic) : Bool := d.severity == .error

/-- The lines of a report. -/
def text (d : Diagnostic) : String :=
  let code := (d.code.map fun c => "[" ++ c.text ++ "]").getD ""
  let span := (d.span.map fun s => " (at " ++ s.text ++ ")").getD ""
  let hint := (d.hint.map fun h => "\n  hint: " ++ h).getD ""
  d.severity.name ++ code ++ ": " ++ d.message ++ span ++ hint

end Diagnostic

/-- An operation that cannot be written as a formula. -/
structure UnsupportedPrimitive where
  primitive : String
  value : Option ValueId
  detail : Option String
  deriving DecidableEq, Repr

namespace UnsupportedPrimitive

/-- The text of the error. -/
def message (e : UnsupportedPrimitive) : String :=
  s!"unsupported primitive `{e.primitive}`" ++ (e.detail.map fun d => ": " ++ d).getD ""

/-- A foreign operation. -/
def foreign (name : String) (value : ValueId) : UnsupportedPrimitive :=
  ⟨name, some value, none⟩

/-- A reshape that does more than insert or drop axes of extent one. -/
def reshape (value : ValueId) (operand target : Shape) : UnsupportedPrimitive :=
  ⟨"reshape", some value,
    some s!"{operand.text} to {target.text} changes non-singleton axes"⟩

end UnsupportedPrimitive

/-- Why a transcription fails. -/
inductive Failure where
  /-- The function could not be captured, for the reason given. -/
  | capture (message : String)
  | unsupported (e : UnsupportedPrimitive)
  deriving DecidableEq, Repr

namespace Failure

/-- The text of the failure. -/
def message : Failure → String
  | .capture message => s!"trace capture failed: {message}"
  | .unsupported e => e.message

/-- The code of the failure. -/
def code : Failure → DiagnosticCode
  | .capture _ => .captureFailed
  | .unsupported _ => .unsupportedPrimitive

/-- The report of the failure. -/
def diagnostic (f : Failure) : Diagnostic :=
  let (hint, values) :=
    match f with
    | .capture _ => (none, [])
    | .unsupported e =>
      (some "only primitives with a rendering rule can be transcribed", e.value.toList)
  ⟨some f.code, .error, f.message, hint, none, values⟩

end Failure

end ArrayEquations
