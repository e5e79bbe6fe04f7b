import ArrayEquations.Proofs.CheckedReverse
import ArrayEquations.Proofs.SymbolTables

/-!
# ArrayEquations — symbols with every access checked

Symbols are found with the help of the graph: the values of tags are read there, and the values of
the primal computation are marked in a table with a slot for each value of the graph, from the roots
down to the operands. In this module these accesses are checked. None fails where the tags and the
bound values are values of the graph, and operands come before the operations that use them.

## Main definitions

* `Checked.resolveNames` — the symbols of arguments and bindings.
* `Checked.primalClosure`, `Checked.thread` — the symbols of derivative quantities.

## Main results

* `Checked.primalClosure_eq` — no access fails where the primal computation is marked.
* `Checked.thread_eq` — none fails where derivative quantities get their symbols.
-/

namespace ArrayEquations

namespace Checked

/-! ## Groups of bindings -/

/-- The bindings of a name, unless there is none. -/
def group? (bindings : List Binding) (name : String) : Option (List Binding) :=
  let members := membersOf bindings name
  if members.isEmpty then none else some members

/-- The warning that bindings of a name are not told apart. -/
def ambiguityWarning? (bindings : List Binding) (name : String) : Option (Option Diagnostic) := do
  let members ← group? bindings name
  return if members.length ≤ 1 || areDistinguishable members then none
    else some
      { code := some .ambiguousName
        severity := .warning
        message :=
          s!"{members.length} bindings share the name `{name}` without distinct dependencies"
        hint := some "pass `depends_on` to each binding to render them as functions"
        span := none
        values := members.map (·.value) }

/-- The symbols of arguments and bindings under a function's name, and the warnings. -/
def resolveNames (function : String) (arguments : List Argument) (bindings : List Binding) :
    Option (NameTable × List Diagnostic) := do
  let t : NameTable := ⟨[], [], .plain function⟩
  let names := (bindings.map (·.name)).eraseDups
  let warnings ← names.mapM (ambiguityWarning? bindings)
  return (bindings.foldl (nameBinding bindings) (nameArguments t arguments), warnings.filterMap id)

theorem resolveNames_eq (function : String) (arguments : List Argument) (bindings : List Binding) :
    resolveNames function arguments bindings =
      some (ArrayEquations.resolveNames function arguments bindings) := by
  -- A name is asked for only if a binding has it, so its group is not empty.
  have hWarnings : ∀ name ∈ (bindings.map (·.name)).eraseDups, ambiguityWarning? bindings name =
      some (ArrayEquations.ambiguityWarning? bindings name) := by
    intro name hName
    obtain ⟨b, hb, rfl⟩ := List.mem_map.mp (List.mem_eraseDups.mp hName)
    have hMember : b ∈ membersOf bindings b.name := List.mem_filter.mpr ⟨hb, beq_self_eq_true _⟩
    have hGroup : group? bindings b.name = some (membersOf bindings b.name) :=
      if_neg (by simpa using List.ne_nil_of_mem hMember)
    rw [ambiguityWarning?, hGroup]
    rfl
  show (((bindings.map (·.name)).eraseDups.mapM (ambiguityWarning? bindings)).bind _) = _
  rw [mapM_eq_some hWarnings]
  show some (_, ((bindings.map (·.name)).eraseDups.map _).filterMap id) = _
  rw [List.filterMap_map]
  rfl

/-! ## The primal computation -/

/-- Whether a tag is that of a cotangent input. -/
def isSeedTag (g : Graph) (t : DerivativeTag) : Option Bool := do
  if t.kind == .cotangent then
    let value ← g.get? t.value
    return value.isLeaf
  else return false

/-- The outputs that are no derivative quantities, then the primals of the seeds. -/
def functionPrimals (trace : Trace) : Option (List ValueId) := do
  let outputs := trace.outputs.filter fun o => (trace.lastTagOf? o).isNone
  let seeds ← collect? (fun tag => do
    return if ← isSeedTag trace.graph tag then some tag.primal else none) trace.tags
  return (outputs ++ seeds).eraseDups

/-- Values that have a slot in a table of the size given. -/
def slotted? (n : Nat) (vs : List ValueId) : Option (List ValueId) :=
  vs.mapM fun v => if v < n then some v else none

/-- Adds the operands of every marked value in the list, last value first. -/
def closeDownward (g : Graph) (marked : List ValueId) : List ValueId → Option (List ValueId)
  | [] => some marked
  | v :: rest =>
    if marked.contains v then do
      let value ← g.get? v
      let operands ← slotted? g.size value.operands
      closeDownward g (operands ++ marked) rest
    else closeDownward g marked rest

/-- The values of the primal computation. -/
def primalClosure (trace : Trace) (names : NameTable) : Option (List ValueId) := do
  let roots ← slotted? trace.graph.size
    (trace.tags.map (·.primal) ++ names.bound.map (·.value))
  let marked ← closeDownward trace.graph roots trace.graph.ids.reverse
  return marked.eraseDups

section Primal

variable {g : Graph} {trace : Trace} {names : NameTable}

theorem isSeedTag_eq {tag : DerivativeTag} (h : tag.value < g.size) :
    isSeedTag g tag = some (ArrayEquations.isSeedTag g tag) := by
  obtain ⟨value, hGet⟩ := Graph.exists_get? h
  rw [isSeedTag, ArrayEquations.isSeedTag, Graph.isLeaf, hGet]
  cases tag.kind <;> rfl

theorem functionPrimals_eq (hTags : ∀ tag ∈ trace.tags, tag.value < trace.graph.size) :
    functionPrimals trace = some (ArrayEquations.functionPrimals trace) := by
  -- The primals that are collected are those of the tags that pass the test.
  unfold functionPrimals
  rw [collect?_eq (p := ArrayEquations.isSeedTag trace.graph) (f := (·.primal)) fun tag hTag => by
    rw [isSeedTag_eq (hTags tag hTag)]
    rfl]
  rfl

theorem slotted?_eq {n : Nat} {vs : List ValueId} (h : ∀ v ∈ vs, v < n) :
    slotted? n vs = some vs :=
  (mapM_eq_some fun v hv => if_pos (h v hv)).trans (congrArg some (List.map_id' vs))

/-- The operands of a value come before it, so they have slots. -/
theorem closeDownward_eq (hOrdered : g.Ordered) {vs : List ValueId} (h : ∀ v ∈ vs, v < g.size)
    (marked : List ValueId) :
    closeDownward g marked vs = some (ArrayEquations.closeDownward g marked vs) := by
  induction vs generalizing marked with
  | nil => rfl
  | cons v vs ih =>
    have hRest := ih fun w hw => h w (List.mem_cons_of_mem _ hw)
    have hv : v < g.size := h v List.mem_cons_self
    rw [closeDownward, ArrayEquations.closeDownward]
    by_cases hMarked : marked.contains v = true
    · obtain ⟨value, hGet⟩ := Graph.exists_get? hv
      have hOperands := Graph.operands_of_get? hGet
      -- What is marked now is met later, for it comes before the value.
      have hSlotted : slotted? g.size value.operands = some value.operands :=
        slotted?_eq fun w hw => Nat.lt_trans (hOrdered v w (hOperands ▸ hw)) hv
      rw [if_pos hMarked, if_pos hMarked, hGet, hOperands, ← hRest]
      show (slotted? g.size value.operands).bind _ = _
      rw [hSlotted]
      rfl
    · rw [if_neg hMarked, if_neg hMarked]
      exact hRest marked

/-- **No access fails where the primal computation is marked.** -/
theorem primalClosure_eq (hOrdered : trace.graph.Ordered)
    (hPrimals : ∀ tag ∈ trace.tags, tag.primal < trace.graph.size)
    (hBound : ∀ b ∈ names.bound, b.value < trace.graph.size) :
    primalClosure trace names = some (ArrayEquations.primalClosure trace names) := by
  have hRoots : ∀ v ∈ trace.tags.map (·.primal) ++ names.bound.map (·.value),
      v < trace.graph.size := by
    intro v hv
    rcases List.mem_append.mp hv with hv | hv
    · obtain ⟨tag, hTag, rfl⟩ := List.mem_map.mp hv
      exact hPrimals tag hTag
    · obtain ⟨b, hb, rfl⟩ := List.mem_map.mp hv
      exact hBound b hb
  have hIds : ∀ v ∈ trace.graph.ids.reverse, v < trace.graph.size := fun v hv =>
    List.mem_range.mp (List.mem_reverse.mp hv)
  unfold primalClosure
  rw [slotted?_eq hRoots]
  show (closeDownward trace.graph _ _).bind _ = _
  rw [closeDownward_eq hOrdered hIds]
  rfl

end Primal

/-! ## Threading -/

/-- The symbol that a tag gives its value, if it gives one. -/
def tagSymbol? (trace : Trace) (t : Threading) (closure : List ValueId) (names : NameTable)
    (tag : DerivativeTag) : Option (Option Symbol) := do
  let value ← trace.graph.get? tag.value
  if value.literal?.isSome || names.hasSymbol tag.value then return none
  let primal ← (if value.isLeaf then some false
    else marked? trace.graph.size closure tag.value : Option Bool)
  if primal then return none
  let base :=
    if tag.kind == .cotangent && value.isLeaf then
      (t.functionSymbol? tag.primal).or (names.symbol? tag.primal)
    else t.primalSymbol? names tag.primal
  return base.map (·.prefixed (t.prefixOf tag.kind))

/-- The table with the symbols that the tags give. -/
def nameTags (trace : Trace) (t : Threading) (closure : List ValueId) (names : NameTable) :
    Option NameTable :=
  trace.tags.foldlM (fun names tag => do
    match ← tagSymbol? trace t closure names tag with
    | some symbol => return names.assign tag.value symbol
    | none => return names) names

/-- The derivative equations of the bound values. -/
def derivativeEquations (trace : Trace) (t : Threading) (names : NameTable) :
    Option (List DerivativeEquation) := do
  let tags ← collect? (fun tag =>
    if names.isBound tag.primal then do
      let value ← trace.graph.get? tag.value
      return if value.isLeaf then none else some tag
    else some none) trace.tags
  let firsts := tags.foldl (fun firsts tag =>
    if firsts.any fun f => f.kind == tag.kind && f.primal == tag.primal then firsts
    else firsts ++ [tag]) []
  return firsts.filterMap fun tag =>
    (names.symbol? tag.primal).map fun symbol =>
      ⟨tag.kind, tag.primal, tag.value, symbol.prefixed (t.prefixOf tag.kind)⟩

/-- The table with the symbols of derivative quantities, and the derivative equations. -/
def thread (trace : Trace) (names : NameTable) (options : Options) :
    Option (NameTable × Threading) := do
  let primals ← functionPrimals trace
  let t : Threading :=
    { derivatives := []
      functionPrimals := primals
      function := names.function
      tangentPrefix := options.tangentPrefix
      cotangentPrefix := options.cotangentPrefix }
  let closure ← primalClosure trace names
  let names ← nameTags trace t closure names
  let names := nameLeftovers trace.arguments names
  let derivatives ← derivativeEquations trace t names
  return (names, { t with derivatives := derivatives })

section Threading

variable {trace : Trace} {t : Threading} {closure : List ValueId} {names : NameTable}

theorem tagSymbol?_eq {tag : DerivativeTag} (h : tag.value < trace.graph.size) :
    tagSymbol? trace t closure names tag =
      some (ArrayEquations.tagSymbol? trace t closure names tag) := by
  obtain ⟨value, hGet⟩ := Graph.exists_get? h
  unfold tagSymbol? ArrayEquations.tagSymbol? ArrayEquations.isSeedTag
  simp only [Graph.literal?, Graph.isLeaf, hGet, marked?_eq h, Option.bind_eq_bind,
    Option.bind_some, Option.any_some]
  -- Three questions decide, and both sides ask the same ones.
  generalize (value.literal?.isSome || names.hasSymbol tag.value) = named
  generalize closure.contains tag.value = primal
  generalize value.isLeaf = leaf
  cases named <;> cases leaf <;> cases primal <;> rfl

theorem nameTags_eq (hTags : ∀ tag ∈ trace.tags, tag.value < trace.graph.size) :
    nameTags trace t closure names = some (ArrayEquations.nameTags trace t closure names) := by
  refine foldlM_eq_some fun tag hTag names => ?_
  rw [tagSymbol?_eq (hTags tag hTag)]
  show (match ArrayEquations.tagSymbol? trace t closure names tag with
    | some symbol => some (names.assign tag.value symbol)
    | none => some names) = _
  cases ArrayEquations.tagSymbol? trace t closure names tag <;> rfl

theorem derivativeEquations_eq (hTags : ∀ tag ∈ trace.tags, tag.value < trace.graph.size) :
    derivativeEquations trace t names =
      some (ArrayEquations.derivativeEquations trace t names) := by
  -- Only the values of tags with a bound primal are read.
  unfold derivativeEquations
  rw [collect?_eq (f := id)
    (p := fun tag => names.isBound tag.primal && !trace.graph.isLeaf tag.value) fun tag hTag => by
      obtain ⟨value, hGet⟩ := Graph.exists_get? (hTags tag hTag)
      rw [Graph.isLeaf, hGet]
      cases names.isBound tag.primal with
      | false => rfl
      | true => cases hLeaf : value.isLeaf <;> simp [hLeaf]]
  rw [List.map_id]
  rfl

/-- **No access fails where derivative quantities get their symbols.** -/
theorem thread_eq (hOrdered : trace.graph.Ordered)
    (hPrimals : ∀ tag ∈ trace.tags, tag.primal < trace.graph.size)
    (hTags : ∀ tag ∈ trace.tags, tag.value < trace.graph.size)
    (hBound : ∀ b ∈ names.bound, b.value < trace.graph.size) (options : Options) :
    thread trace names options = some (ArrayEquations.thread trace names options) := by
  unfold thread
  rw [functionPrimals_eq hTags, primalClosure_eq hOrdered hPrimals hBound]
  simp only [Option.bind_eq_bind, Option.bind_some, nameTags_eq hTags,
    derivativeEquations_eq hTags]
  rfl

end Threading

end Checked

end ArrayEquations
