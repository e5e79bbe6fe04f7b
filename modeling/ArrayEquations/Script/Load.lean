import ArrayEquations.Script.Parser

/-!
# ArrayEquations — loading scripts

A source is a script if it has no fault, no two of its functions share a name, and no
two parameters of a function do.

## Main definitions

* `Script` — a script, with `Script.function?` and `Script.entry?` to select a function.
* `Script.load` — the script of a source, or what is wrong with it.
-/

namespace ArrayEquations

/-- The functions of a script in the order of their definition. -/
structure Script where
  definitions : List Script.Definition

namespace Script

namespace Definition

/-- The names of the parameters. -/
def parameterNames (d : Definition) : List String := d.parameters.map (·.name.name)

/-- The shapes of the examples on which the function is captured. -/
def exampleShapes (d : Definition) : List Shape := d.parameters.map (·.shape)

/-- The position of a parameter. -/
def parameterPosition? (d : Definition) (name : String) : Option Nat :=
  d.parameterNames.idxOf? name

end Definition

/-- The function of a name. -/
def function? (s : Script) (name : String) : Option Definition :=
  s.definitions.find? (·.name.name == name)

/-- The function that is taken if none is asked for: the last one. -/
def entry? (s : Script) : Option Definition := s.definitions.getLast?

/-! ## Loading -/

/-- The report of a fault in a source. -/
def Fault.diagnostic (f : Fault) : Diagnostic :=
  ⟨some .scriptSyntax, .error, f.message, none, some f.span, []⟩

/-- The report that a name was defined before, if it was. -/
def repetition (kind : String) (before : List Identifier) (name : Identifier) :
    List Diagnostic :=
  match before.find? (·.name == name.name) with
  | none => []
  | some first =>
    [{ code := some .duplicateDefinition
       severity := .error
       message := s!"{kind} `{name.name}` is defined more than once"
       hint := some s!"first defined at {first.span.text}"
       span := some name.span
       values := [] }]

/-- The reports of all names in a list that stand in it before. -/
def repetitions (kind : String) (names : List Identifier) : List Diagnostic :=
  names.zipIdx.flatMap fun (name, i) => repetition kind (names.take i) name

/-- The reports of functions that share a name, and of parameters of a function that do. -/
def checkDefinitions (ds : List Definition) : List Diagnostic :=
  let names := ds.map (·.name)
  ds.zipIdx.flatMap fun (d, i) =>
    repetition "function" (names.take i) d.name ++
      repetitions "parameter" (d.parameters.map (·.name))

/-- The script of a source, or what is wrong with it. -/
def load (source : String) : Except (List Diagnostic) Script :=
  let parsed := parse source
  let faults := parsed.faults.map Fault.diagnostic
  match parsed.file with
  | none => .error faults
  | some file =>
    let reports := faults ++ checkDefinitions file.definitions
    if reports.isEmpty then .ok ⟨file.definitions⟩ else .error reports

end Script

end ArrayEquations
