import ArrayEquations.Proofs.DerivedBackward
import ArrayEquations.Proofs.DerivedTrace
import ArrayEquations.Proofs.FormulaSymbols
import ArrayEquations.Proofs.OutputLabels
import ArrayEquations.Proofs.PlannedEquations

/-!
# ArrayEquations — no symbol is undefined

A formula stops at every value that has a symbol, so each symbol has to be defined somewhere: it
is that of an input, or it stands on the left of an equation. Symbols and equations are made by
different loops, and this holds because each loop that gives a symbol has one that plans an
equation for it. A symbol of a binding has the equation of the binding; that of a cotangent of a
bound value the derivative equation of the value; and that of the cotangent of the one chosen
argument the equation of the output.

With several arguments it does not hold: an output is labelled with the last tag of its value, and
a value that is the cotangent of two arguments has the symbol of the first.

## Main definitions

* `Trace.Readable` — all that equations are about is there, and inputs are arguments.
* `Trace.Defines` — a symbol is that of an argument, or of an equation that is planned.

## Main results

* `Trace.defines_of_table` — the symbols of arguments and bindings are defined.
* `Trace.DerivesBackward.defines` — and so are those of cotangents.
* `Trace.symbols_defined` — no symbol on the right of an equation is undefined.
-/

namespace ArrayEquations

open NameTable

/-! ## Programs and their plans -/

namespace Trace

variable {t d : Trace} {options : Options} {v : ValueId} {s : Symbol}

/-- Inputs are arguments, and all that equations are about is in the graph. -/
structure Readable (d : Trace) : Prop where
  graph : d.graph.Founded
  argument_of_leaf : ∀ v, d.graph.isLeaf v = true → v ∈ d.arguments.map (·.value)
  binding_lt : ∀ b ∈ d.bindings, b.value < d.graph.size
  tag_lt : ∀ tag ∈ d.tags, tag.value < d.graph.size
  output_lt : ∀ o ∈ d.outputs, o < d.graph.size

theorem Importable.readable (h : t.Importable) : t.Readable where
  graph := h.wellFormed.graph.founded
  argument_of_leaf := h.wellFormed.argument_of_leaf
  binding_lt b hb := (lt_size_of_replayBindings h.wellFormed.bindings b hb).1
  tag_lt tag hTag := (h.tag_lt tag hTag).2
  output_lt := h.wellFormed.output_lt

/-- The symbol is that of an argument, or that of an equation which is planned. -/
def Defines (d : Trace) (options : Options) (s : Symbol) : Prop :=
  (∃ a ∈ d.arguments, (d.threaded options).1.symbol? a.value = some s) ∨
    ∃ p ∈ planProgram d (d.threaded options).1 (d.threaded options).2, p.symbol = s

theorem Readable.bound_lt (h : d.Readable) {b : BoundName} (hb : b ∈ (d.table options).bound) :
    b.value < d.graph.size := by
  have hValue : b.value ∈ d.bindings.map (·.value) :=
    (resolvedNames_table d options).values ▸ List.mem_map.mpr ⟨b, hb, rfl⟩
  obtain ⟨binding, hBinding, hEq⟩ := List.mem_map.mp hValue
  exact hEq ▸ h.binding_lt binding hBinding

/-- What a plan is about is in the graph. -/
theorem Readable.root_lt (h : d.Readable) {p : EquationPlan}
    (hp : p ∈ planProgram d (d.threaded options).1 (d.threaded options).2) :
    p.root < d.graph.size := by
  rcases root_of_mem_planProgram hp with hBound | ⟨equation, hEquation, hRoot⟩ | hOutput
  · rw [bound_threaded] at hBound
    obtain ⟨b, hb, hValue⟩ := List.mem_map.mp hBound
    exact hValue ▸ h.bound_lt hb
  · obtain ⟨tag, hTag, hValue⟩ := tag_of_mem_derivativeEquations hEquation
    rw [hRoot, hValue]
    exact h.tag_lt tag hTag
  · exact h.output_lt _ hOutput

/-- If the symbols of the table are defined, then so are those of every right-hand side, for a
formula has no others. -/
theorem Readable.allSymbols_defined (h : d.Readable)
    (hDefines : ∀ v s, (d.threaded options).1.symbol? v = some s → d.Defines options s)
    {program : Program} (hProgram : (d.run options .build).state.program = some program) :
    ∀ e ∈ program, ∀ s ∈ e.rhs.symbols,
      (∃ a ∈ d.arguments, (d.threaded options).1.symbol? a.value = some s) ∨
        ∃ e' ∈ program, e'.lhs.symbol = s := by
  have hEach := buildPlanned_each
    (b := Builder.new d.graph (d.threaded options).1 options.indexAlphabet)
    (alphabetLetters_ne_nil _) (program_run hProgram)
  -- Inputs are arguments, and all arguments have symbols in the end.
  have hInputs : ∀ v, d.graph.isLeaf v = true → (d.threaded options).1.hasSymbol v = true := by
    intro v hv
    obtain ⟨a, ha, rfl⟩ := List.mem_map.mp (h.argument_of_leaf v hv)
    exact hasSymbol_nameLeftovers ha
  intro e he s hs
  obtain ⟨p, hp, hOne⟩ := exists_beside_of_forall₂ hEach he
  have hSymbol : d.Defines options s :=
    Builder.allSymbols_equation h.graph hInputs hDefines (h.root_lt hp) hOne s hs
  -- A planned equation is there, since the program was built.
  rcases hSymbol with hArgument | ⟨p', hp', rfl⟩
  · exact Or.inl hArgument
  · right
    obtain ⟨e', he', hOne'⟩ := exists_beside_of_forall₂ hEach.flip hp'
    exact ⟨e', he', (Builder.equation_label hOne').2⟩

/-! ## Arguments and bindings -/

theorem defines_of_argument (hArgument : v ∈ d.arguments.map (·.value))
    (h : (d.threaded options).1.symbol? v = some s) : d.Defines options s := by
  obtain ⟨a, ha, rfl⟩ := List.mem_map.mp hArgument
  exact Or.inl ⟨a, ha, h⟩

/-- A symbol that a value has before the tags are read is that of an argument, or that of the
equation of its binding. -/
theorem defines_of_table (h : (d.table options).symbol? v = some s) : d.Defines options s := by
  rcases (resolvedNames_table d options).origin v s h with hArgument | ⟨b, hb, hOwns, -, hSymbol⟩
  · exact defines_of_argument hArgument (grows_threaded v s h)
  · have hBound : b ∈ (d.threaded options).1.bound := by rwa [bound_threaded]
    exact Or.inr ⟨_, planned_binding hBound hOwns, hSymbol⟩

/-- Placeholders are symbols of arguments. -/
theorem defines_of_tagged
    (hTagged : ∀ v s, (d.tagged options).symbol? v = some s → d.Defines options s)
    (h : (d.threaded options).1.symbol? v = some s) : d.Defines options s := by
  rcases origin_of_nameLeftovers h with hOld | hArgument
  · exact hTagged v s hOld
  · exact defines_of_argument hArgument h

/-- Without tags there are no other symbols. -/
theorem defines_of_tags_eq_nil (hTags : d.tags = [])
    (h : (d.threaded options).1.symbol? v = some s) : d.Defines options s := by
  refine defines_of_tagged (fun w s' hSymbol => ?_) h
  rw [tagged, nameTags_eq, hTags] at hSymbol
  exact defines_of_table hSymbol

/-! ## Cotangents -/

/-- The table as it is when the tags of a list are read. -/
def taggedBy (d : Trace) (options : Options) (tags : List DerivativeTag) : NameTable :=
  tags.foldl (nameTag d (d.roles options) (primalClosure d (d.table options))) (d.table options)

/-- What is named when some of the tags are read keeps its symbol. -/
theorem grows_taggedBy {before after : List DerivativeTag} (hSplit : d.tags = before ++ after) :
    (d.taggedBy options before).Grows (d.threaded options).1 := by
  have hAll : d.tagged options = after.foldl
      (nameTag d (d.roles options) (primalClosure d (d.table options)))
      (d.taggedBy options before) := by
    rw [tagged, nameTags_eq, hSplit, List.foldl_append]
    rfl
  have hRest : (d.taggedBy options before).Grows (d.tagged options) := by
    rw [hAll]
    exact grows_foldl grows_nameTag _ _
  exact hRest.trans grows_nameLeftovers

theorem grows_table_taggedBy (tags : List DerivativeTag) :
    (d.table options).Grows (d.taggedBy options tags) := grows_foldl grows_nameTag _ _

/-- **The first tag that speaks of an input names it**, if the input has no symbol before. -/
theorem symbol?_of_first_tag {before after : List DerivativeTag} {tag : DerivativeTag}
    {base : Symbol} (hSplit : d.tags = before ++ tag :: after)
    (hOther : ∀ other ∈ before, other.value ≠ tag.value)
    (hLeaf : d.graph.isLeaf tag.value = true) (hNone : (d.table options).symbol? tag.value = none)
    (hBase : (if isSeedTag d.graph tag then ((d.roles options).functionSymbol? tag.primal).or
        ((d.taggedBy options before).symbol? tag.primal)
      else (d.roles options).primalSymbol? (d.taggedBy options before) tag.primal) = some base) :
    (d.threaded options).1.symbol? tag.value =
      some (base.prefixed ((d.roles options).prefixOf tag.kind)) := by
  -- The tags before are on other values, so the value has no symbol yet.
  have hFree : (d.taggedBy options before).symbol? tag.value = none :=
    symbol?_foldl_nameTag hOther hNone
  have hLiteral : d.graph.literal? tag.value = none := by
    rw [Graph.literal?, Graph.isLeaf_eq_true hLeaf]
    rfl
  have hNames : tagSymbol? d (d.roles options) (primalClosure d (d.table options))
      (d.taggedBy options before) tag =
        some (base.prefixed ((d.roles options).prefixOf tag.kind)) := by
    simp only [tagSymbol?, hLiteral, hasSymbol, hFree, hLeaf, hBase]
    rfl
  have hEnd : d.tags = (before ++ [tag]) ++ after := by
    rw [hSplit, List.append_assoc]
    rfl
  apply grows_taggedBy hEnd
  rw [taggedBy, List.foldl_append]
  exact symbol?_nameTag hFree hNames

/-- What is bound and no input has its symbol from the binding. -/
theorem exists_owner (options : Options) {primal : ValueId}
    (hBound : primal ∈ d.bindings.map (·.value))
    (hInner : primal ∉ d.arguments.map (·.value)) :
    ∃ own, (d.table options).symbol? primal = some own ∧
      ∃ b ∈ (d.threaded options).1.bound, b.ownsValue = true ∧ b.value = primal := by
  obtain ⟨binding, hBinding, rfl⟩ := List.mem_map.mp hBound
  obtain ⟨own, hOwn⟩ := hasSymbol_iff.mp ((resolvedNames_table d options).binding binding hBinding)
  rcases (resolvedNames_table d options).origin _ _ hOwn with hArgument | ⟨b, hb, hOwns, hValue, -⟩
  · exact absurd hArgument hInner
  · exact ⟨own, hOwn, b, by rwa [bound_threaded], hOwns, hValue⟩

/-- The cotangent of a bound value that is no input is defined by the derivative equation of the
value. -/
theorem defines_of_bound_cotangent {primal : ValueId} (hTag : ⟨.cotangent, primal, v⟩ ∈ d.tags)
    (hBound : primal ∈ d.bindings.map (·.value)) (hInner : primal ∉ d.arguments.map (·.value))
    (hLeaf : d.graph.isLeaf v = false) {before : List DerivativeTag}
    (h : tagSymbol? d (d.roles options) (primalClosure d (d.table options))
      (d.taggedBy options before) ⟨.cotangent, primal, v⟩ = some s) : d.Defines options s := by
  obtain ⟨own, hOwn, b, hb, hOwns, hValue⟩ := exists_owner options hBound hInner
  obtain ⟨-, -, -, base, hBase, rfl⟩ := tagSymbol?_eq_some h
  have hInput : ¬ isSeedTag d.graph ⟨.cotangent, primal, v⟩ = true := by simp [isSeedTag, hLeaf]
  rw [if_neg hInput, Threading.primalSymbol?, grows_table_taggedBy before primal own hOwn] at hBase
  obtain rfl : own = base := Option.some.inj hBase
  -- The value is bound, so its first cotangent has an equation, under the same symbol.
  have hIsBound : (d.threaded options).1.isBound primal = true :=
    List.any_eq_true.mpr ⟨b, hb, by simp [hOwns, hValue]⟩
  obtain ⟨equation, hEquation, hKind, hPrimal, hSymbol⟩ := exists_derivativeEquation
    (t := d.roles options) hTag hIsBound hLeaf (grows_threaded primal own hOwn)
  refine Or.inr ⟨_, planned_cotangent (d := equation) hb hOwns ?_ hKind ?_, hSymbol⟩
  · rw [threaded_snd]
    exact hEquation
  · rw [hPrimal, hValue]

/-- A derived trace can be read as its trace can. -/
theorem Importable.readable_of_derives (h : t.Importable) {seeds : List ValueId}
    {tagged : List DerivativeTag} (hDerives : t.recorder.Derives d.recorder seeds tagged)
    (hOutputs : ∀ o ∈ d.outputs, o < d.graph.size) : d.Readable where
  graph := hDerives.founded h.wellFormed.graph.founded
  argument_of_leaf := hDerives.argument_of_leaf h.wellFormed.argument_of_leaf
  binding_lt b hb := by
    have hBindings : d.bindings = t.bindings := hDerives.bindings
    exact hDerives.lt (h.readable.binding_lt b (hBindings ▸ hb))
  tag_lt tag hTag := (hDerives.forall_tag_lt h.tag_lt tag hTag).2
  output_lt := hOutputs

namespace DerivesBackward

variable {a ct : ValueId} {seeds starts : List ValueId} {carried : List DerivativeTag}

theorem output_lt {wrt : List ValueId} (h : t.DerivesBackward d wrt seeds starts carried) :
    ∀ o ∈ d.outputs, o < d.graph.size := by
  intro o ho
  -- Each output is tagged as the cotangent of an argument.
  obtain ⟨a, hTag⟩ := exists_tag_of_value h.outputs_length.symm ho
  exact (h.recorder.tag_lt _ (List.mem_append_right _ (List.mem_append_right _ hTag))).2

theorem table_eq {wrt : List ValueId} (h : t.DerivesBackward d wrt seeds starts carried) :
    d.table options = t.table options :=
  table_eq_of_seeds h.name h.recorder.arguments h.recorder.bindings

/-- A seed has no symbol before the tags are read. -/
theorem symbol?_seed {wrt : List ValueId} (ht : t.Importable)
    (h : t.DerivesBackward d wrt seeds starts carried) {seed : ValueId} (hSeed : seed ∈ seeds) :
    (d.table options).symbol? seed = none := by
  have hNew : t.graph.size ≤ seed := (h.recorder.seed seed hSeed).1
  rw [h.table_eq]
  by_contra hSome
  obtain ⟨s, hs⟩ := Option.ne_none_iff_exists'.mp hSome
  rcases (resolvedNames_table t options).origin seed s hs with hArgument | ⟨b, hb, -, rfl, -⟩
  · obtain ⟨argument, hMem, rfl⟩ := List.mem_map.mp hArgument
    have hLeaf := ht.wellFormed.leaf_of_argument argument hMem
    exact absurd (Graph.lt_size_of_isLeaf hLeaf) (Nat.not_lt.mpr hNew)
  · exact absurd (ht.readable.bound_lt hb) (Nat.not_lt.mpr hNew)

/-- **A seed is called after its output**: the tag of the output is the first one that speaks of
the seed, and the seed has no other symbol. -/
theorem symbol?_of_start {wrt : List ValueId} (ht : t.Importable) (hTags : t.tags = [])
    (h : t.DerivesBackward d wrt seeds seeds carried) (hNodup : seeds.Nodup) {o seed : ValueId}
    (hStart : ⟨.cotangent, o, seed⟩ ∈ tagsOf .cotangent t.outputs seeds)
    (hFunction : (d.roles options).functionSymbol? o = some s) :
    (d.threaded options).1.symbol? seed = some (s.prefixed options.cotangentPrefix) := by
  have hValues : (tagsOf .cotangent t.outputs seeds).map (·.value) = seeds := by
    rw [tagsOf, List.map_map]
    exact List.map_snd_zip h.starts_length.le
  have hDistinct : ((tagsOf .cotangent t.outputs seeds).map (·.value)).Nodup := by
    rw [hValues]
    exact hNodup
  have hSeed : seed ∈ seeds := by
    rw [← hValues]
    exact List.mem_map.mpr ⟨_, hStart, rfl⟩
  have hLeaf : d.graph.isLeaf seed = true := (h.recorder.seed seed hSeed).2
  -- The tags of the outputs stand first in the trace, each about a seed of its own.
  obtain ⟨before, after, hSplit⟩ := List.append_of_mem hStart
  have hFirst : addTags [] (tagsOf .cotangent t.outputs seeds) =
      tagsOf .cotangent t.outputs seeds := addTags_of_nodup (hDistinct.of_map _)
  have hAll : d.tags = addTags t.tags _ := h.recorder.tags
  rw [hTags, addTags_append, hFirst] at hAll
  obtain ⟨more, hMore⟩ := exists_addTags_eq (tagsOf .cotangent t.outputs seeds)
    (carried ++ tagsOf .cotangent wrt d.outputs)
  rw [hMore, hSplit] at hAll
  have hOther : ∀ tag ∈ before, tag.value ≠ seed := by
    intro tag hTag hEq
    rw [hSplit, List.map_append, List.map_cons] at hDistinct
    exact (List.nodup_append.mp hDistinct).2.2 tag.value (List.mem_map.mpr ⟨tag, hTag, rfl⟩) seed
      List.mem_cons_self hEq
  have hInput : isSeedTag d.graph ⟨.cotangent, o, seed⟩ = true := by simp [isSeedTag, hLeaf]
  refine symbol?_of_first_tag (by rw [hAll, List.append_assoc]; rfl) hOther hLeaf
    (h.symbol?_seed ht hSeed) ?_
  rw [if_pos hInput, hFunction]
  rfl

/-- The tags of the outputs and of bound values give symbols that are defined. -/
private theorem defines_of_early {wrt : List ValueId} (ht : t.Importable)
    (h : t.DerivesBackward d wrt seeds starts carried) {tag : DerivativeTag} (hTag : tag ∈ d.tags)
    (hEarly : tag ∈ tagsOf .cotangent t.outputs starts ++ carried)
    (hLeaf : d.graph.isLeaf tag.value = false) {before : List DerivativeTag}
    (hNames : tagSymbol? d (d.roles options) (primalClosure d (d.table options))
      (d.taggedBy options before) tag = some s) : d.Defines options s := by
  obtain ⟨hLiteral, -⟩ := tagSymbol?_eq_some hNames
  rcases List.mem_append.mp hEarly with hStart | hCarried
  · -- The cotangents of outputs are inputs or a constant.
    obtain ⟨-, hZip⟩ := mem_tagsOf.mp hStart
    have hValue : tag.value ∈ starts := (List.of_mem_zip hZip).2
    rcases h.starts with ⟨rfl, -⟩ | ⟨-, hConstant⟩
    · have hSeed := (h.recorder.seed _ hValue).2
      exact absurd (hSeed.symm.trans hLeaf) (by simp)
    · have hSome := hConstant _ hValue
      rw [hLiteral] at hSome
      exact absurd hSome (by simp)
  · obtain ⟨kind, primal, value⟩ := tag
    obtain ⟨rfl, hBound, hOp, -⟩ := h.carried _ hCarried
    have hBindings : d.bindings = t.bindings := h.recorder.bindings
    refine defines_of_bound_cotangent hTag (hBindings ▸ hBound) ?_ hLeaf hNames
    -- What is an operation is no input.
    intro hArgument
    rcases h.recorder.mem_arguments.mp hArgument with hOwn | hSeed
    · obtain ⟨argument, hMem, rfl⟩ := List.mem_map.mp hOwn
      apply hOp
      rw [Graph.op?, Graph.isLeaf_eq_true (ht.wellFormed.leaf_of_argument argument hMem)]
      rfl
    · obtain ⟨binding, hBinding, rfl⟩ := List.mem_map.mp hBound
      exact absurd (ht.readable.binding_lt binding hBinding)
        (Nat.not_lt.mpr (h.recorder.seed _ hSeed).1)

/-- What stands for the function while all outputs are derivatives is the primal of a seed. -/
private theorem exists_seedTag {primal : ValueId}
    (hTagged : ∀ o ∈ d.outputs, d.lastTagOf? o ≠ none)
    (hFunction : (d.roles options).functionSymbol? primal = some s) :
    ∃ seed, ⟨.cotangent, primal, seed⟩ ∈ d.tags ∧ d.graph.isLeaf seed = true := by
  have hMem : primal ∈ functionPrimals d := by
    by_contra hNot
    have hIndex : (d.roles options).functionPrimals.idxOf? primal = none :=
      List.idxOf?_eq_none_iff.mpr hNot
    rw [Threading.functionSymbol?, hIndex] at hFunction
    exact absurd hFunction (by simp)
  rcases List.mem_append.mp (List.mem_eraseDups.mp hMem) with hOutput | hPrimal
  · obtain ⟨ho, hNone⟩ := List.mem_filter.mp hOutput
    exact absurd (by simpa using hNone) (hTagged primal ho)
  · obtain ⟨⟨kind, primal', seed⟩, hTag, rfl⟩ := List.mem_map.mp hPrimal
    obtain ⟨hTag, hSeed⟩ := List.mem_filter.mp hTag
    obtain ⟨rfl, hLeaf⟩ : kind = .cotangent ∧ d.graph.isLeaf seed = true := by
      simpa [isSeedTag] using hSeed
    exact ⟨seed, hTag, hLeaf⟩

/-- A seed that is tagged with the argument is that of an output which is the argument. -/
private theorem start_of_seedTag (hTags : t.tags = []) (ha : t.graph.isLeaf a = true)
    (h : t.DerivesBackward d [a] seeds starts carried) (hOutputs : d.outputs = [ct])
    (hLeaf : d.graph.isLeaf ct = false) {seed : ValueId}
    (hTag : ⟨.cotangent, a, seed⟩ ∈ d.tags) (hSeed : d.graph.isLeaf seed = true) :
    (⟨.cotangent, a, seed⟩ : DerivativeTag) ∈ tagsOf .cotangent t.outputs seeds ∧
      starts = seeds ∧ seeds.Nodup := by
  rcases List.mem_append.mp ((h.recorder.mem_tags hTags).mp hTag) with hStart | hRest
  · -- The cotangent of an output: a seed, for a constant is no input.
    have hValue : seed ∈ starts := (List.of_mem_zip (mem_tagsOf.mp hStart).2).2
    rcases h.starts with ⟨rfl, hNodup⟩ | ⟨-, hConstant⟩
    · exact ⟨hStart, rfl, hNodup⟩
    · have hSome := hConstant seed hValue
      rw [Graph.literal?, Graph.isLeaf_eq_true hSeed] at hSome
      exact absurd hSome (by simp [Value.literal?])
  · rcases List.mem_append.mp hRest with hCarried | hOutput
    · -- Cotangents on the way back are those of operations, and the argument is none.
      obtain ⟨-, -, hOp, -⟩ := h.carried _ hCarried
      rw [Graph.op?, Graph.isLeaf_eq_true ha] at hOp
      exact absurd rfl hOp
    · obtain ⟨-, hZip⟩ := mem_tagsOf.mp hOutput
      rw [hOutputs] at hZip
      obtain ⟨-, rfl⟩ := Prod.mk.inj (List.mem_singleton.mp hZip)
      exact absurd (hSeed.symm.trans hLeaf) (by simp)

/-- The last tag gives the symbol with which the output is labelled; where the argument has no
symbol and is an output itself, this is the symbol of the seed of that output. -/
private theorem defines_of_last (ht : t.Importable) (hTags : t.tags = [])
    (ha : t.graph.isLeaf a = true) (h : t.DerivesBackward d [a] seeds starts carried)
    (hOutputs : d.outputs = [ct]) {before : List DerivativeTag}
    (hSplit : d.tags = before ++ [⟨.cotangent, a, ct⟩]) (hLeaf : d.graph.isLeaf ct = false)
    (hNames : tagSymbol? d (d.roles options) (primalClosure d (d.table options))
      (d.taggedBy options before) ⟨.cotangent, a, ct⟩ = some s) : d.Defines options s := by
  obtain ⟨-, -, -, base, hBase, rfl⟩ := tagSymbol?_eq_some hNames
  have hInner : ¬ isSeedTag d.graph ⟨.cotangent, a, ct⟩ = true := by simp [isSeedTag, hLeaf]
  rw [if_neg hInner, Threading.primalSymbol?] at hBase
  have hLast : d.lastTagOf? ct = some ⟨.cotangent, a, ct⟩ := by
    rw [lastTagOf?, hSplit, List.reverse_append]
    simp
  cases hOwn : (d.taggedBy options before).symbol? a with
  | some own =>
    rw [hOwn] at hBase
    obtain rfl : own = base := Option.some.inj hBase
    -- The argument keeps its symbol, and the output is labelled from it.
    have hFinal : (d.threaded options).1.symbol? a = some own := grows_taggedBy hSplit a own hOwn
    refine Or.inr ⟨_, planned_output (o := ct) (hOutputs ▸ List.mem_cons_self), ?_⟩
    simp only [Threading.outputSymbol, hLast, Threading.primalSymbol?, hFinal, Option.some_or,
      Option.getD_some]
    rfl
  | none =>
    rw [hOwn, Option.none_or] at hBase
    -- The argument has no symbol, so that of the function stood in for it. Then the argument is
    -- an output itself, and the symbol is the one of that output's seed.
    have hTagged : ∀ o ∈ d.outputs, d.lastTagOf? o ≠ none := by
      intro o ho
      rw [hOutputs] at ho
      rw [List.mem_singleton.mp ho, hLast]
      simp
    obtain ⟨seed, hTag, hSeed⟩ := exists_seedTag hTagged hBase
    obtain ⟨hStart, rfl, hNodup⟩ := start_of_seedTag hTags ha h hOutputs hLeaf hTag hSeed
    have hReadable := ht.readable_of_derives h.recorder h.output_lt
    exact defines_of_argument (hReadable.argument_of_leaf seed hSeed)
      (h.symbol?_of_start ht hTags hNodup hStart hBase)

/-- The first place of an item that no earlier one equals is the last of the list. -/
private theorem eq_nil_of_append_eq_concat {α : Type} {before after init : List α} {x : α}
    (h : before ++ x :: after = init ++ [x]) (hNew : x ∉ init) : after = [] := by
  induction after using List.reverseRecOn with
  | nil => rfl
  | append_singleton after y _ =>
    have hInit : before ++ x :: after ++ [y] = init ++ [x] := by
      rw [← h, List.append_assoc]
      rfl
    obtain ⟨rfl, -⟩ := List.append_inj' hInit rfl
    exact absurd (List.mem_append_right before List.mem_cons_self) hNew

/-- **The symbols of a reverse derivative with respect to one argument are defined.** -/
theorem defines (ht : t.Importable) (hTags : t.tags = []) (ha : t.graph.isLeaf a = true)
    (h : t.DerivesBackward d [a] seeds starts carried)
    (hSymbol : (d.threaded options).1.symbol? v = some s) : d.Defines options s := by
  refine defines_of_tagged (fun w s' hTagged => ?_) hSymbol
  rcases origin_of_nameTags hTagged with hTable | ⟨before, tag, after, hSplit, rfl, hNames⟩
  · exact defines_of_table hTable
  · by_cases hLeaf : d.graph.isLeaf tag.value = true
    · have hReadable := ht.readable_of_derives h.recorder h.output_lt
      exact defines_of_argument (hReadable.argument_of_leaf _ hLeaf)
        (grows_nameLeftovers _ _ hTagged)
    · have hLeaf : d.graph.isLeaf tag.value = false := by simpa using hLeaf
      have hMem : tag ∈ d.tags := by simp [hSplit]
      obtain ⟨ct, hOutputs⟩ := List.length_eq_one_iff.mp h.outputs_length
      have hAll : d.tags = addTags t.tags _ := h.recorder.tags
      rw [hOutputs, hTags] at hAll
      have hLast : tagsOf .cotangent [a] [ct] = [⟨.cotangent, a, ct⟩] := rfl
      rw [hLast, ← List.append_assoc] at hAll
      -- The last tag is that of the output for the argument; the others are those of seeds and of
      -- the way back.
      by_cases hEarly : tag ∈ tagsOf .cotangent t.outputs starts ++ carried
      · exact h.defines_of_early ht hMem hEarly hLeaf hNames
      · -- Then the tag is the last one, and stands behind all others.
        rw [hAll, mem_addTags, List.mem_append] at hMem
        have hOnly := (hMem.resolve_left List.not_mem_nil).resolve_left hEarly
        obtain rfl := List.mem_singleton.mp hOnly
        have hNew : (⟨.cotangent, a, ct⟩ : DerivativeTag) ∉
            addTags [] (tagsOf .cotangent t.outputs starts ++ carried) :=
          fun hMem => hEarly ((mem_addTags.mp hMem).resolve_left List.not_mem_nil)
        rw [addTags_concat hNew, hSplit] at hAll
        obtain rfl := eq_nil_of_append_eq_concat hAll hNew
        exact h.defines_of_last ht hTags ha hOutputs hSplit hLeaf hNames

end DerivesBackward

/-- **No symbol is undefined.** Take a recorded or imported trace without tags, as it is or after
one reverse differentiation or gradient with respect to one argument. If its program can be built,
then each symbol on the right of an equation is that of an argument of the trace, or it stands on
the left of an equation of the program. -/
theorem symbols_defined (hTrace : t.IsRecorded ∨ ∃ text, ofText text = .ok t)
    (hTags : t.tags = [])
    (hDerived : d = t ∨ ∃ mode positions a, mode ≠ .jvp ∧
      selectArguments t positions = .ok [a] ∧ t.differentiate mode positions = .ok d)
    {names : NameTable} {program : Program}
    (hNames : (d.run options .build).state.names = some names)
    (hProgram : (d.run options .build).state.program = some program) :
    ∀ e ∈ program, ∀ s ∈ e.rhs.symbols,
      (∃ a ∈ d.arguments, names.symbol? a.value = some s) ∨ ∃ e' ∈ program, e'.lhs.symbol = s := by
  have hImportable : t.Importable := by
    rcases hTrace with hRecorded | ⟨text, hText⟩
    · exact hRecorded.importable
    · exact importable_of_ofText hText
  rw [names_run] at hNames
  obtain rfl := Option.some.inj hNames
  -- The trace itself has no derivatives, and a derivative names them after what it derives.
  rcases hDerived with rfl | ⟨mode, positions, a, hMode, hSelect, hDerivative⟩
  · exact hImportable.readable.allSymbols_defined
      (fun _ _ hSymbol => defines_of_tags_eq_nil hTags hSymbol) hProgram
  · obtain ⟨seeds, starts, carried, hDerives⟩ :=
      derivesBackward hImportable.wellFormed hMode hSelect hDerivative
    have hSelects := selects_of_selectArguments hImportable.wellFormed hSelect
    have ha : t.graph.isLeaf a = true := by
      rw [Graph.isLeaf, hSelects.leaf hImportable.wellFormed List.mem_cons_self]
      rfl
    exact (hImportable.readable_of_derives hDerives.recorder hDerives.output_lt).allSymbols_defined
      (fun _ _ hSymbol => hDerives.defines hImportable hTags ha hSymbol) hProgram

/-- The product of two numbers, which is named, times the first of them. -/
def namedProductCalls : List RecordingCall :=
  [.argument [] (some "x"), .argument [] (some "y"), .arith .mul 0 1, .named 2 "z" none,
    .arith .mul 2 0]

/-- The trace of these calls. -/
def namedProduct : Trace where
  name := "f"
  graph := ⟨#[⟨.leaf, []⟩, ⟨.leaf, []⟩, ⟨.op (.arith .mul) [0, 1], []⟩,
    ⟨.op (.arith .mul) [2, 0], []⟩]⟩
  arguments := [⟨0, some "x", false⟩, ⟨1, some "y", false⟩]
  bindings := [⟨0, "z", 2, none⟩]
  tags := []
  outputs := [3]

/-- Its cotangent with respect to the first number, from the seed `4`. -/
def namedProductCotangent : Trace where
  name := "f"
  graph := ⟨#[⟨.leaf, []⟩, ⟨.leaf, []⟩, ⟨.op (.arith .mul) [0, 1], []⟩,
    ⟨.op (.arith .mul) [2, 0], []⟩, ⟨.leaf, []⟩, ⟨.op (.arith .mul) [4, 0], []⟩,
    ⟨.op (.arith .mul) [2, 4], []⟩, ⟨.op (.arith .mul) [5, 1], []⟩,
    ⟨.op .accumulate [6, 7], []⟩]⟩
  arguments := [⟨0, some "x", false⟩, ⟨1, some "y", false⟩, ⟨4, none, true⟩]
  bindings := [⟨0, "z", 2, none⟩]
  tags := [⟨.cotangent, 3, 4⟩, ⟨.cotangent, 2, 5⟩, ⟨.cotangent, 0, 8⟩]
  outputs := [8]

/-- Its equations: `z = x y`, `\delta z = \delta f x` and `\delta x = z \delta f + \delta z y`. -/
def namedProductProgram : Program :=
  let named (name : String) : Expr := .var ⟨.plain name, []⟩
  [⟨.binding, ⟨.plain "z", []⟩, .binary .mul (named "x") (named "y")⟩,
    ⟨.derivative, ⟨.plain "\\delta z", []⟩,
      .binary .mul (named "\\delta f") (named "x")⟩,
    ⟨.output, ⟨.plain "\\delta x", []⟩,
      .terms [.binary .mul (named "z") (named "\\delta f"),
        .binary .mul (named "\\delta z") (named "y")]⟩]

/-- The output has `z` and its cotangent in its formula; both have equations. -/
theorem symbols_defined_namedProduct :
    ∃ names, (namedProductCotangent.run {} .build).state.names = some names ∧
      (namedProductCotangent.run {} .build).state.program = some namedProductProgram ∧
      ∀ e ∈ namedProductProgram, ∀ s ∈ e.rhs.symbols,
        (∃ a ∈ namedProductCotangent.arguments, names.symbol? a.value = some s) ∨
          ∃ e' ∈ namedProductProgram, e'.lhs.symbol = s := by
  have hRecorded : namedProduct.IsRecorded := by
    exact ⟨namedProductCalls, ⟨namedProduct.graph, namedProduct.arguments, namedProduct.bindings,
      [], none⟩, "f", [3], by decide, by decide⟩
  have hSelect : selectArguments namedProduct [0] = .ok [0] := by decide
  have hDerivative : namedProduct.differentiate .vjp [0] = .ok namedProductCotangent := by decide
  have hProgram : (namedProductCotangent.run {} .build).state.program =
      some namedProductProgram := by with_unfolding_all rfl
  refine ⟨_, names_run _ _, hProgram, ?_⟩
  exact symbols_defined (Or.inl hRecorded) rfl
    (Or.inr ⟨.vjp, [0], 0, by decide, hSelect, hDerivative⟩) (names_run _ _) hProgram

end Trace

end ArrayEquations
