/-!
# ArrayEquations — passes of a transcription

A transcription is done in passes. Each pass makes artifacts from those of the pass
before it, and the order of the passes is fixed.

## Main definitions

* `Pass`, `Artifact` — the passes and what they make.
* `Pass.required` — the passes that make an artifact, in order.
-/

namespace ArrayEquations

/-- The passes in order. -/
inductive Pass where
  | bind | thread | build | render
  deriving DecidableEq, Repr

/-- What a pass makes. -/
inductive Artifact where
  | names | threading | program | text
  deriving DecidableEq, Repr

namespace Pass

/-- The spelling of a pass. -/
def name : Pass → String
  | .bind => "bind"
  | .thread => "thread"
  | .build => "build"
  | .render => "render"

/-- All passes in order. -/
def all : List Pass := [.bind, .thread, .build, .render]

/-- The pass of a spelling. -/
def ofName? (name : String) : Option Pass := all.find? (·.name == name)

/-- The passes whose artifacts a pass uses. -/
def inputs : Pass → List Pass
  | .bind => []
  | .thread => [.bind]
  | .build => [.thread]
  | .render => [.build]

/-- The artifacts of a pass. -/
def outputs : Pass → List Artifact
  | .bind => [.names]
  | .thread => [.names, .threading]
  | .build => [.program]
  | .render => [.text]

/-- What holds after a pass. -/
def invariants : Pass → String
  | .bind => "every primal argument and bound value has a symbol"
  | .thread => "derivative quantities named, derivative equations collected"
  | .build => "every output and bound value has an equation"
  | .render => "one line per equation, brackets balanced"

/-- The passes up to the one given: each pass uses the one before it. -/
def required (terminal : Pass) : List Pass := all.takeWhile (· ≠ terminal) ++ [terminal]

end Pass

end ArrayEquations
