import ArrayEquations.Text.Blank
import ArrayEquations.Trace

/-!
# ArrayEquations — giving names to values

Bindings are collected one after the other. A binding is refused if its name is blank,
if it speaks of values that the graph does not have, or if it depends on a value that
is neither an input nor the target of an earlier binding.

## Main definitions

* `BindingError` — why a binding is refused.
* `addBinding` — the bindings with one more; a refused one changes nothing.
* `replayBindings` — the bindings of a list collected anew.
-/

namespace ArrayEquations

/-- Why a binding is refused. -/
inductive BindingError where
  | blankName
  | unknownValue (name : String) (value : ValueId)
  | unknownDependency (name : String) (dependency : ValueId)
  /-- A dependency on a value that has no name of its own. -/
  | namelessDependency (name : String) (dependency : ValueId)
  deriving DecidableEq, Repr

/-- The text of a binding error. -/
def BindingError.message : BindingError → String
  | .blankName => "binding name must not be empty"
  | .unknownValue name v => s!"binding `{name}` refers to unknown value {valueText v}"
  | .unknownDependency name v => s!"binding `{name}` depends on unknown value {valueText v}"
  | .namelessDependency name v =>
    s!"binding `{name}` depends on {valueText v}, which is neither an argument nor a named value"

/-- Whether a value is the target of one of the bindings. -/
def isTarget (bindings : List Binding) (v : ValueId) : Bool := bindings.any (·.value == v)

/-- Whether a binding of this name may depend on a value. -/
def checkDependency (g : Graph) (bindings : List Binding) (name : String) (v : ValueId) :
    Except BindingError Unit :=
  if !g.has v then .error (.unknownDependency name v)
  else if g.isLeaf v || isTarget bindings v then .ok ()
  else .error (.namelessDependency name v)

/-- Whether a binding may follow the bindings given. -/
def checkBinding (g : Graph) (bindings : List Binding) (value : ValueId) (name : String)
    (dependsOn : Option (List ValueId)) : Except BindingError Unit := do
  if isBlankText name then throw .blankName
  if !g.has value then throw (.unknownValue name value)
  (dependsOn.getD []).forM (checkDependency g bindings name)

/-- The bindings with one more, which gets the next number. -/
def addBinding (g : Graph) (bindings : List Binding) (value : ValueId) (name : String)
    (dependsOn : Option (List ValueId)) : Except BindingError (List Binding) := do
  checkBinding g bindings value name dependsOn
  return bindings ++ [⟨bindings.length, name, value, dependsOn⟩]

/-- The bindings of a list collected anew from none. -/
def replayBindings (g : Graph) (bindings : List Binding) : Except BindingError (List Binding) :=
  bindings.foldlM (fun before b => addBinding g before b.value b.name b.dependsOn) []

end ArrayEquations
