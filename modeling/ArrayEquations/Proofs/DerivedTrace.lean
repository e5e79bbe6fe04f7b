import ArrayEquations.Proofs.DerivedRecorder
import ArrayEquations.Proofs.RecordedTrace

/-!
# ArrayEquations — derived traces can be imported

What a differentiation adds to a trace passes the checks of an import as well: the seeds are inputs
and become arguments, no operation is foreign, and tags speak of values that are there. So a
derived trace can be imported if its graph is well-formed.

## Main results

* `Recorder.Derives.argument_of_leaf` — all inputs are arguments.
* `Trace.Importable.of_derives` — a derived trace with a well-formed graph can be imported.
-/

namespace ArrayEquations

namespace Recorder.Derives

variable {r r' : Recorder} {seeds : List ValueId} {tagged : List DerivativeTag}

/-- If all inputs are arguments, they still are, for new inputs are seeds. -/
theorem argument_of_leaf (h : r.Derives r' seeds tagged)
    (hLeaf : ∀ v, r.graph.isLeaf v = true → v ∈ r.arguments.map (·.value)) :
    ∀ v, r'.graph.isLeaf v = true → v ∈ r'.arguments.map (·.value) := by
  intro v hv
  rw [h.mem_arguments]
  by_cases hOld : v < r.graph.size
  · exact Or.inl (hLeaf v ((h.graph.isLeaf_eq hOld).symm.trans hv))
  · exact Or.inr (h.added v _ (Nat.not_lt.mp hOld) (Graph.isLeaf_eq_true hv))

/-- If all tags speak of values that are there, they still do. -/
theorem forall_tag_lt (h : r.Derives r' seeds tagged)
    (hTags : ∀ tag ∈ r.tags, tag.primal < r.graph.size ∧ tag.value < r.graph.size) :
    ∀ tag ∈ r'.tags, tag.primal < r'.graph.size ∧ tag.value < r'.graph.size := by
  intro tag hTag
  rw [h.tags] at hTag
  rcases mem_addTags.mp hTag with hOld | hNew
  · obtain ⟨hPrimal, hValue⟩ := hTags tag hOld
    exact ⟨h.lt hPrimal, h.lt hValue⟩
  · exact h.tag_lt tag hNew

end Recorder.Derives

namespace Trace

variable {t d : Trace} {seeds : List ValueId} {tagged : List DerivativeTag}

/-- **A derived trace passes every check of an import** if its graph is well-formed and its seeds
are different inputs. -/
theorem Importable.of_derives (h : t.Importable)
    (hDerives : t.recorder.Derives d.recorder seeds tagged) (hGraph : d.graph.WellFormed)
    (hNodup : seeds.Nodup) (hNonempty : d.outputs ≠ [])
    (hOutputs : ∀ o ∈ d.outputs, o < d.graph.size) : d.Importable := by
  have hExtends : t.graph.Extends d.graph := hDerives.graph
  have hArguments : d.arguments = t.arguments ++ seedArguments seeds := hDerives.arguments
  have hBindings : d.bindings = t.bindings := hDerives.bindings
  refine ⟨⟨hGraph, ?_, ?_, hDerives.argument_of_leaf h.wellFormed.argument_of_leaf, hNonempty,
    hOutputs, ?_⟩, ?_, hDerives.forall_tag_lt h.tag_lt⟩
  · -- An argument of the trace is an input as before, and a seed is one too.
    intro a ha
    rw [hArguments] at ha
    rcases List.mem_append.mp ha with ha | ha
    · exact hExtends.isLeaf_of (h.wellFormed.leaf_of_argument a ha)
    · obtain ⟨s, hs, rfl⟩ := List.mem_map.mp ha
      exact (hDerives.seed s hs).2
  · -- The arguments of the trace are values of the trace, and the seeds are new.
    have hSeeds : (seedArguments seeds).map (·.value) = seeds := by
      rw [seedArguments, List.map_map]
      exact List.map_id _
    rw [hArguments, List.map_append, hSeeds, List.nodup_append]
    refine ⟨h.wellFormed.nodup_arguments, hNodup, ?_⟩
    rintro v hv s hs rfl
    obtain ⟨a, ha, rfl⟩ := List.mem_map.mp hv
    have hLt := Graph.lt_size_of_isLeaf (h.wellFormed.leaf_of_argument a ha)
    exact absurd hLt (Nat.not_lt.mpr (hDerives.seed _ hs).1)
  · rw [hBindings]
    exact replayBindings_extend hExtends h.wellFormed.bindings
  · -- A foreign operation is one of the trace, for the added ones have rules.
    intro v name operands hOp
    by_cases hv : v < t.graph.size
    · rw [hExtends.op?_eq hv] at hOp
      exact h.foreign v name operands hOp
    · obtain ⟨-, -, hRule⟩ := hDerives.added v _ (Nat.not_lt.mp hv) (Graph.op?_eq_some hOp)
      exact absurd rfl (hRule name)

end Trace

end ArrayEquations
