import ArrayEquations.Proofs.DerivedBackward
import ArrayEquations.Proofs.DerivedForward
import ArrayEquations.Proofs.RecordedForm
import ArrayEquations.Proofs.SymbolTables

/-!
# ArrayEquations — differentiation renames no primal value

A tag may say of a value of the trace that it also is some derivative. Such a value keeps its own
form: inputs have their symbols before the tags are read, and other values of the primal
computation are passed over. The primal computation contains all that the outputs are computed
from, for each output is the primal of a tag.

## Main definitions

* `Trace.Spares` — no tag names a value below the bound.

## Main results

* `operands_mem_closeDownward` — the primal computation contains the operands of its values.
* `Trace.DerivesForward.spares`, `Trace.DerivesBackward.spares` — derivatives spare the values of
  their trace.
* `Trace.symbol?_threaded_of_lt` — so these have the symbols they had.
-/

namespace ArrayEquations

open NameTable

/-! ## The primal computation -/

section Closure

variable {g : Graph} {v w : ValueId} {marked : List ValueId}

theorem mem_closeDownward_of_mem (order : List ValueId) (h : v ∈ marked) :
    v ∈ closeDownward g marked order := by
  induction order generalizing marked with
  | nil => exact h
  | cons u order ih =>
    rw [closeDownward]
    apply ih
    split
    · exact List.mem_append_right _ h
    · exact h

/-- Only operands of the values in the list are added. -/
theorem lt_of_mem_closeDownward (hg : g.Ordered) {n : Nat}
    (h : v ∈ closeDownward g marked (List.range n).reverse) : v ∈ marked ∨ v < n := by
  induction n generalizing marked with
  | zero => exact Or.inl h
  | succ n ih =>
    rw [List.range_succ, List.reverse_append] at h
    have hRest : v ∈ closeDownward g (if marked.contains n then g.operands n ++ marked else marked)
        (List.range n).reverse := h
    rcases ih hRest with hMem | hLt
    · split at hMem
      · rcases List.mem_append.mp hMem with hOperand | hMem
        · exact Or.inr (Nat.lt_succ_of_lt (hg n v hOperand))
        · exact Or.inl hMem
      · exact Or.inl hMem
    · exact Or.inr (Nat.lt_succ_of_lt hLt)

/-- **The operands of a value of the primal computation belong to it.** A value is met before its
operands, so when its turn comes it is there already, or it never will be. -/
theorem operands_mem_closeDownward (hg : g.Ordered) {n : Nat} (hv : v < n)
    (h : v ∈ closeDownward g marked (List.range n).reverse) (hw : w ∈ g.operands v) :
    w ∈ closeDownward g marked (List.range n).reverse := by
  induction n generalizing marked with
  | zero => exact absurd hv (Nat.not_lt_zero v)
  | succ n ih =>
    rw [List.range_succ, List.reverse_append] at h ⊢
    let next := if marked.contains n then g.operands n ++ marked else marked
    have hNext : v ∈ closeDownward g next (List.range n).reverse := h
    show w ∈ closeDownward g next (List.range n).reverse
    by_cases hLast : v < n
    · exact ih hLast hNext
    · -- This is the turn of the value. It is marked by now, or its own turn cannot mark it.
      obtain rfl : v = n := Nat.le_antisymm (Nat.lt_succ_iff.mp hv) (Nat.not_lt.mp hLast)
      have hMem : v ∈ next := (lt_of_mem_closeDownward hg hNext).resolve_right hLast
      have hMarked : v ∈ marked := by
        by_contra hNot
        have hSame : next = marked := if_neg (by simpa using hNot)
        exact hNot (hSame ▸ hMem)
      have hAdded : next = g.operands v ++ marked := if_pos (by simpa using hMarked)
      apply mem_closeDownward_of_mem
      rw [hAdded]
      exact List.mem_append_left _ hw

end Closure

namespace Trace

variable {t d : Trace} {options : Options} {names : NameTable} {v w : ValueId} {s : Symbol}

theorem mem_primalClosure_of_primal {tag : DerivativeTag} (h : tag ∈ d.tags) :
    tag.primal ∈ primalClosure d names :=
  List.mem_eraseDups.mpr (mem_closeDownward_of_mem _
    (List.mem_append_left _ (List.mem_map.mpr ⟨tag, h, rfl⟩)))

theorem operands_mem_primalClosure (hg : d.graph.Ordered) (hv : v < d.graph.size)
    (h : v ∈ primalClosure d names) (hw : w ∈ d.graph.operands v) : w ∈ primalClosure d names :=
  List.mem_eraseDups.mpr (operands_mem_closeDownward hg hv (List.mem_eraseDups.mp h) hw)

/-- What the outputs of a trace are computed from belongs to the primal computation of a derived
trace whose tags speak of the outputs. -/
theorem mem_primalClosure_of_leadsTo (hGraph : t.graph.Extends d.graph) (hg : d.graph.Ordered)
    {outputs : List ValueId} (hOutputs : ∀ o ∈ outputs, ∃ tag ∈ d.tags, tag.primal = o)
    (h : t.graph.LeadsTo outputs v) : v ∈ primalClosure d names := by
  induction h with
  | output ho =>
    obtain ⟨tag, hTag, rfl⟩ := hOutputs _ ho
    exact mem_primalClosure_of_primal hTag
  | @operand u w _ hw ih =>
    have hLt : u < t.graph.size := Graph.lt_size_of_mem_operands hw
    refine operands_mem_primalClosure hg (Nat.lt_of_lt_of_le hLt hGraph.size_le) ih ?_
    rwa [hGraph.operands_eq hLt]

/-! ## Spared values -/

/-- A tag that speaks of a value below the bound does not name it: the value is a constant or an
input, or belongs to the primal computation. -/
def Spares (d : Trace) (options : Options) (n : Nat) : Prop :=
  ∀ tag ∈ d.tags, tag.value < n → (d.graph.literal? tag.value).isSome = true ∨
    d.graph.isLeaf tag.value = true ∨ tag.value ∈ primalClosure d (d.table options)

theorem spares_of_tags_eq_nil (hTags : d.tags = []) (n : Nat) : d.Spares options n := by
  intro tag hTag
  rw [hTags] at hTag
  exact absurd hTag List.not_mem_nil

/-- The tags of a forward differentiation are about new values. -/
theorem DerivesForward.new_of_mem_tags {wrt seeds tangents : List ValueId}
    {carried : List DerivativeTag} (h : t.DerivesForward d wrt seeds tangents carried)
    (hTags : t.tags = []) {tag : DerivativeTag} (hTag : tag ∈ d.tags) :
    tag.kind = .tangent ∧ t.graph.size ≤ tag.value := by
  rcases List.mem_append.mp ((h.recorder.mem_tags hTags).mp hTag) with hSeed | hRest
  · obtain ⟨hKind, hZip⟩ := mem_tagsOf.mp hSeed
    exact ⟨hKind, (h.recorder.seed _ (List.of_mem_zip hZip).2).1⟩
  · rcases List.mem_append.mp hRest with hCarried | hTangent
    · exact h.carried_new tag hCarried
    · obtain ⟨hKind, hZip⟩ := mem_tagsOf.mp hTangent
      exact ⟨hKind, h.tangents_new _ (List.of_mem_zip hZip).2⟩

theorem DerivesForward.spares {wrt seeds tangents : List ValueId} {carried : List DerivativeTag}
    (h : t.DerivesForward d wrt seeds tangents carried) (hTags : t.tags = []) :
    d.Spares options t.graph.size :=
  fun _ hTag hLt => absurd hLt (Nat.not_lt.mpr (h.new_of_mem_tags hTags hTag).2)

/-- A cotangent that is a value of the trace is one that an output is computed from. -/
theorem DerivesBackward.spares {wrt seeds starts : List ValueId} {carried : List DerivativeTag}
    (ht : t.WellFormed) (h : t.DerivesBackward d wrt seeds starts carried) (hTags : t.tags = []) :
    d.Spares options t.graph.size := by
  have hOutputs : ∀ o ∈ t.outputs, ∃ tag ∈ d.tags, tag.primal = o := by
    intro o ho
    obtain ⟨start, hTag⟩ := exists_tag_of_primal h.starts_length.symm ho
    exact ⟨_, (h.recorder.mem_tags hTags).mpr (List.mem_append_left _ hTag), rfl⟩
  have hOrdered := (h.recorder.founded ht.graph.founded).ordered
  -- Every output has a tag, so whatever leads to an output belongs to the primal computation.
  have hLeads : ∀ {v}, t.graph.LeadsTo t.outputs v → v ∈ primalClosure d (d.table options) :=
    mem_primalClosure_of_leadsTo h.recorder.graph hOrdered hOutputs
  intro tag hTag hLt
  rcases List.mem_append.mp ((h.recorder.mem_tags hTags).mp hTag) with hStart | hRest
  · have hValue : tag.value ∈ starts := (List.of_mem_zip (mem_tagsOf.mp hStart).2).2
    rcases h.starts with ⟨rfl, -⟩ | ⟨-, hConstant⟩
    · exact Or.inr (Or.inl (h.recorder.seed _ hValue).2)
    · exact Or.inl (hConstant _ hValue)
  · -- A cotangent of the way back that is no new value leads to an output.
    refine Or.inr (Or.inr (hLeads ?_))
    rcases List.mem_append.mp hRest with hCarried | hOutput
    · obtain ⟨-, -, -, hSource⟩ := h.carried tag hCarried
      exact hSource.resolve_left (Nat.not_le.mpr hLt)
    · have hValue : tag.value ∈ d.outputs := (List.of_mem_zip (mem_tagsOf.mp hOutput).2).2
      exact (h.outputs tag.value hValue).resolve_left (Nat.not_le.mpr hLt)

/-! ## Symbols of spared values -/

section Symbols

variable {seeds : List ValueId} {tagged : List DerivativeTag}

/-- Inputs of the function itself have symbols before the tags are read. -/
private theorem symbol?_ne_none_of_leaf (ht : t.WellFormed)
    (hPrimal : ∀ a ∈ t.arguments, a.derivative = false) (hLeaf : t.graph.isLeaf v = true) :
    (t.table options).symbol? v ≠ none := by
  obtain ⟨a, ha, rfl⟩ := List.mem_map.mp (ht.argument_of_leaf v hLeaf)
  obtain ⟨s, hs⟩ := hasSymbol_iff.mp ((resolvedNames_table t options).argument a ha (hPrimal a ha))
  rw [hs]
  simp

/-- **Spared values have the symbols that they have in the trace itself**, and no others. -/
theorem symbol?_threaded_of_lt (ht : t.WellFormed)
    (hPrimal : ∀ a ∈ t.arguments, a.derivative = false)
    (hDerives : t.recorder.Derives d.recorder seeds tagged) (hName : d.name = t.name)
    (hSpares : d.Spares options t.graph.size) (hv : v < t.graph.size) :
    (d.threaded options).1.symbol? v = (t.table options).symbol? v := by
  have hTable : d.table options = t.table options :=
    table_eq_of_seeds hName hDerives.arguments hDerives.bindings
  have hLeafEq : d.graph.isLeaf v = t.graph.isLeaf v := hDerives.graph.isLeaf_eq hv
  cases hSymbol : (t.table options).symbol? v with
  | some s =>
    rw [← hTable] at hSymbol
    exact grows_threaded v s hSymbol
  | none =>
    have hInner : ¬ t.graph.isLeaf v = true := fun hLeaf =>
      symbol?_ne_none_of_leaf ht hPrimal hLeaf hSymbol
    by_contra hSome
    obtain ⟨s, hs⟩ := Option.ne_none_iff_exists'.mp hSome
    -- A new symbol would be a placeholder of an argument, or come from a tag.
    rcases origin_of_nameLeftovers hs with hTagged | hArgument
    · rcases origin_of_nameTags hTagged with hOld | ⟨before, tag, after, hSplit, rfl, hNames⟩
      · rw [hTable, hSymbol] at hOld
        exact absurd hOld (by simp)
      · obtain ⟨hLiteral, -, hOpen, -⟩ := tagSymbol?_eq_some hNames
        rcases hSpares tag (by simp [hSplit]) hv with hConstant | hLeaf | hClosure
        · rw [hLiteral] at hConstant
          exact absurd hConstant (by simp)
        · exact hInner (hLeafEq ▸ hLeaf)
        · exact hOpen.elim (fun hLeaf => hInner (hLeafEq ▸ hLeaf)) fun hNot => hNot hClosure
    · rcases hDerives.mem_arguments.mp hArgument with hOwn | hSeed
      · obtain ⟨a, ha, rfl⟩ := List.mem_map.mp hOwn
        exact hInner (ht.leaf_of_argument a ha)
      · exact absurd hv (Nat.not_lt.mpr (hDerives.seed v hSeed).1)

end Symbols

end Trace

end ArrayEquations
