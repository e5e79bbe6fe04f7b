import ArrayEquations.Diagnostic
import ArrayEquations.Expression
import ArrayEquations.Trace

/-!
# ArrayEquations — the symbols of values

Arguments and bindings give values their symbols. Bindings that share a name are told
apart by what they depend on: if each of them states dependencies and no two state the
same set, they are written like functions of those values; otherwise all of them are
written as the bare name, and a warning says so.

## Main definitions

* `NameTable` — the symbol of each value that has one; the first symbol stays.
* `placeholder` — the name of an argument that has none.
* `resolveNames` — the symbols of a trace, and the warnings.
-/

namespace ArrayEquations

/-- A binding with its symbol. -/
structure BoundName where
  /-- The number of the binding. -/
  binding : Nat
  value : ValueId
  symbol : Symbol
  /-- Whether the symbol became the symbol of the value; otherwise it is an alias. -/
  ownsValue : Bool
  deriving DecidableEq, Repr

/-- The symbols of values. -/
structure NameTable where
  symbols : List (ValueId × Symbol)
  /-- The bindings in the order of their declaration. -/
  bound : List BoundName
  /-- The symbol of the function itself. -/
  function : Symbol
  deriving DecidableEq, Repr

namespace NameTable

/-- The symbol of a value. -/
def symbol? (t : NameTable) (v : ValueId) : Option Symbol := t.symbols.lookup v

/-- Whether a value has a symbol. -/
def hasSymbol (t : NameTable) (v : ValueId) : Bool := (t.symbol? v).isSome

/-- Gives a value a symbol unless it has one. -/
def assign (t : NameTable) (v : ValueId) (s : Symbol) : NameTable :=
  if t.hasSymbol v then t else { t with symbols := t.symbols ++ [(v, s)] }

/-- Whether a value got its symbol from a binding. -/
def isBound (t : NameTable) (v : ValueId) : Bool :=
  t.bound.any fun b => b.ownsValue && b.value == v

end NameTable

/-- The name of the argument at a position that has no formal name: `a` to `z`, then `a'` to
`z'`, and so on. -/
def placeholder (position : Nat) : String :=
  String.ofList (Char.ofNat ('a'.toNat + position % 26) :: List.replicate (position / 26) '\'')

/-- Dependencies as a set: ascending and without repetitions. -/
def dependencySet (dependencies : List ValueId) : List ValueId :=
  (dependencies.mergeSort (· ≤ ·)).eraseDups

/-- Whether each binding states dependencies and no two state the same set. -/
def areDistinguishable (members : List Binding) : Bool :=
  let sets := members.map fun b => dependencySet (b.dependsOn.getD [])
  sets.all (!·.isEmpty) && (sets.eraseDups.length == sets.length)

/-- The bindings of a name. -/
def membersOf (bindings : List Binding) (name : String) : List Binding :=
  bindings.filter (·.name == name)

/-- The warning that bindings of a name are not told apart, if there are several such. -/
def ambiguityWarning? (bindings : List Binding) (name : String) : Option Diagnostic :=
  let members := membersOf bindings name
  if members.length ≤ 1 || areDistinguishable members then none
  else some
    { code := some .ambiguousName
      severity := .warning
      message :=
        s!"{members.length} bindings share the name `{name}` without distinct dependencies"
      hint := some "pass `depends_on` to each binding to render them as functions"
      span := none
      values := members.map (·.value) }

/-- The table with the symbols of the arguments. Derivative inputs without a formal name get
none here. -/
def nameArguments (t : NameTable) (arguments : List Argument) : NameTable :=
  let primal := arguments.filter (!·.derivative)
  let t := primal.zipIdx.foldl (fun t (a, position) =>
    t.assign a.value (.plain (a.name.getD (placeholder position)))) t
  (arguments.filter (·.derivative)).foldl (fun t a =>
    match a.name with
    | some name => t.assign a.value (.plain name)
    | none => t) t

/-- The name that stands for a value behind a symbol that depends on it. -/
def dependencyName (t : NameTable) (v : ValueId) : String :=
  ((t.symbol? v).map (·.name)).getD (valueText v)

/-- The symbol of a binding. -/
def bindingSymbol (bindings : List Binding) (t : NameTable) (b : Binding) : Symbol :=
  if areDistinguishable (membersOf bindings b.name) then
    ⟨b.name, (b.dependsOn.getD []).map (dependencyName t)⟩
  else .plain b.name

/-- The table with one more binding. -/
def nameBinding (bindings : List Binding) (t : NameTable) (b : Binding) : NameTable :=
  let symbol := bindingSymbol bindings t b
  let ownsValue := !t.hasSymbol b.value
  let t := t.assign b.value symbol
  { t with bound := t.bound ++ [⟨b.id, b.value, symbol, ownsValue⟩] }

/-- The symbols of arguments and bindings under a function's name, and the warnings in the
order in which the names first occur. -/
def resolveNames (function : String) (arguments : List Argument) (bindings : List Binding) :
    NameTable × List Diagnostic :=
  let t : NameTable := ⟨[], [], .plain function⟩
  let names := (bindings.map (·.name)).eraseDups
  (bindings.foldl (nameBinding bindings) (nameArguments t arguments),
    names.filterMap (ambiguityWarning? bindings))

end ArrayEquations
