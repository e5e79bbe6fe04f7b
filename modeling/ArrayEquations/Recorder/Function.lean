import ArrayEquations.Recorder

/-!
# ArrayEquations — functions that can be traced

A function is known by what it does with its arguments while they are recorded.
-/

namespace ArrayEquations

/-- A function that can be traced. -/
structure TracedFunction where
  name : String
  /-- The formal names of the arguments, if they have any. -/
  argumentNames : Option (List String)
  /-- The outputs of the function on its arguments. -/
  body : List ValueId → Recording (List ValueId)

namespace TracedFunction

/-- The function with formal names for its arguments. -/
def withArgumentNames (f : TracedFunction) (names : List String) : TracedFunction :=
  { f with argumentNames := some names }

/-- Records the function on arguments of the shapes given. -/
def record (f : TracedFunction) (shapes : List Shape) : Recording (List ValueId) := do
  let names := f.argumentNames.getD []
  let arguments ← shapes.zipIdx.mapM fun (shape, i) => Recording.argument shape names[i]?
  f.body arguments

/-- The trace of the function on arguments of the shapes given. -/
def capture (f : TracedFunction) (shapes : List Shape) : Except RecordingError Trace := do
  if let some names := f.argumentNames then
    if names.length ≠ shapes.length then
      throw (.argumentNames f.name names.length shapes.length)
  let (outputs, r) := (f.record shapes).run Recorder.empty
  r.finish f.name outputs

end TracedFunction

end ArrayEquations
