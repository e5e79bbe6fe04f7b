import ArrayEquations.Proofs.ReversePass

/-!
# ArrayEquations — reverse differentiation is the transpose of the derivative

Cotangents pair with tangents to one total all the way back. At the outputs this is the
pairing of the seeds with the tangents of the outputs; at the end it is the pairing of the
recorded cotangents with the tangents of the chosen arguments.

## Main results

* `Reverse.exists_plan` — without foreign operations there always is a way back.
* `Trace.vjp_sound` — the two pairings are equal.
-/

namespace ArrayEquations

universe u

namespace Reverse

open Recording Differentiating

variable {K : Type*} [Field K] {I : Interpretation K} {inputs : ValueId → Position → K}
  {g : Graph} {wrt : List ValueId}

/-- Without foreign operations there always is a way back. -/
theorem exists_plan (hRules : g.HasRules) (outputs : List (ValueId × (Position → K))) :
    ∃ c, plan I inputs g wrt outputs = .ok c := by
  unfold plan
  simp only
  generalize (⟨g, none, dependents g wrt⟩ : Reverse).seeded outputs = c
  induction g.ids.reverse generalizing c with
  | nil => exact ⟨c, rfl⟩
  | cons v vs ih =>
    rw [List.foldlM_cons]
    -- The plan stops at foreign operations only, and the graph has none.
    have hStep : ∃ c', handOn I inputs ⟨g, none, dependents g wrt⟩ c v = .ok c' := by
      cases hOp : g.op? v with
      | none => exact ⟨c, handOn_of_leaf hOp⟩
      | some made =>
        obtain ⟨op, operands⟩ := made
        cases hc : c v with
        | none => exact ⟨c, handOn_of_none hc⟩
        | some ct =>
          exact ⟨_, handOn_of_op hc hOp fun name hEq => hRules v name operands (hEq ▸ hOp)⟩
    obtain ⟨c', hc'⟩ := hStep
    rw [hc']
    exact ih c'

/-- The plan keeps the pairing with the tangents. -/
theorem inner_plan (hg : g.WellFormed) (hNodup : wrt.Nodup)
    (hLeaf : ∀ a ∈ wrt, g.get? a = some ⟨.leaf, g.shape a⟩)
    {outputs : List (ValueId × (Position → K))} (hOutputs : ∀ o ∈ outputs, o.1 < g.size)
    {c : Cotangents K} (h : plan I inputs g wrt outputs = .ok c)
    (tangents : ValueId → Position → K) :
    (outputs.map fun o => (g.shape o.1).inner o.2
        (g.recordedTangent I inputs (directionOf wrt tangents) o.1)).sum =
      (wrt.map fun a => (g.shape a).inner (c.entries a) (tangents a)).sum := by
  let x : Reverse := ⟨g, none, dependents g wrt⟩
  have hZero : ∀ w < x.graph.size, x.depends.contains w = false →
      ∀ p ∈ (x.graph.shape w).box,
        x.graph.recordedTangent I inputs (directionOf wrt tangents) w p = 0 := by
    intro w hw hDepends
    exact tangent_eq_zero_of_not_depends hg w hw (by simpa using hDepends)
  have hEnd := @total_end K _ I inputs x tangents wrt hNodup hLeaf c
  have hAll := total_foldlM_handOn hg hZero h
  have hStart := @total_seeded K _ x _ outputs hOutputs hZero
  exact hStart.symm.trans (hAll.symm.trans hEnd)

private theorem sum_zip_of_forall₂ {R : ValueId → ValueId → Prop} {as bs : List ValueId}
    (h : List.Forall₂ R as bs) {f : ValueId → K} {e : ValueId × ValueId → K}
    (hEq : ∀ a b, R a b → f a = e (a, b)) : (as.map f).sum = ((as.zip bs).map e).sum := by
  induction h with
  | nil => rfl
  | cons hOne _ ih =>
    rw [List.map_cons, List.sum_cons, List.zip_cons_cons, List.map_cons, List.sum_cons, ih,
      hEq _ _ hOne]

end Reverse

open Reverse Differentiating in
/-- **Reverse differentiation is the transpose of the derivative.** For an imported trace of
operations that have rules, with at least one argument, and for any valid positions, there is
a derivative. Its inputs are those of the trace and a seed for each output, and it has one
output for each chosen argument, of the argument's shape or the constant zero. With exact
arithmetic the seeds pair with the tangents of the outputs on dual numbers as the outputs of
the derivative pair with the tangents of the chosen arguments. -/
theorem Trace.vjp_sound {draft : TraceDraft} {t : Trace} (hTrace : Trace.ofDraft draft = .ok t)
    (hRules : t.graph.HasRules) (hArguments : t.arguments ≠ [])
    {positions : List Nat} (hPositions : ∀ p ∈ positions, p < t.arguments.length) :
    ∃ wrt t' seeds, selectArguments t positions = .ok wrt ∧ wrt.Nodup ∧
      t.differentiate .vjp positions = .ok t' ∧
      t'.arguments = t.arguments ++ seedArguments seeds ∧
      t.graph.Seeds t'.graph t.outputs seeds ∧
      t'.outputs.length = wrt.length ∧
      (∀ x ∈ wrt.zip t'.outputs, t'.graph.shape x.2 = t.graph.shape x.1 ∨
        t'.graph.literal? x.2 = some 0) ∧
      ∀ (K : Type u) [Field K] (I : Interpretation K) (inputs tangents : ValueId → Position → K),
        I.Exact → t.graph.ExactExponents I →
        ((t.outputs.zip seeds).map fun x => (t.graph.shape x.1).inner (inputs x.2)
            (t.graph.tangent I inputs (directionOf wrt tangents) x.1)).sum =
          ((wrt.zip t'.outputs).map fun x => (t.graph.shape x.1).inner
            (t'.graph.entry I inputs x.2) (tangents x.1)).sum := by
  have h := Trace.wellFormed_of_ofDraft hTrace
  obtain ⟨wrt, hSelect, hSelects⟩ := t.exists_selectArguments h hPositions
  have hLeaf : ∀ a ∈ wrt, t.graph.get? a = some ⟨.leaf, t.graph.shape a⟩ :=
    fun a ha => hSelects.leaf h ha
  -- Whether there is a derivative, and which one, does not depend on the field.
  obtain ⟨seeds, -, hFollows⟩ := @follows_recordReverse ℚ _ plainReading 0 t.recorder t.graph wrt
    h.graph (fun _ _ => rfl) rfl (t.bindings.map (·.value)) hLeaf t.outputs h.output_lt
  obtain ⟨c, hPlan⟩ := @exists_plan ℚ _ plainReading 0 t.graph wrt hRules
    (seedArrays 0 t.outputs seeds)
  obtain ⟨ws, r, hRun, hExtends, hSeeds, hAll⟩ :=
    ((hFollows 0 fun _ _ _ _ => rfl).1 c hPlan).exists_run
  have hNonempty : ws ≠ [] := by
    rintro rfl
    exact hSelects.nonempty hArguments (List.length_eq_zero_iff.mp hAll.length_eq)
  have hExtend := Trace.extend_eq_ok h hRun hExtends hNonempty (IsCotangent.all_lt hAll)
  refine ⟨wrt, ⟨t.name, r.graph, r.arguments, r.bindings, r.tags, ws⟩, seeds, hSelect,
    hSelects.nodup, ?_, hExtends.arguments, hSeeds, hAll.length_eq.symm, ?_, ?_⟩
  · rw [differentiate, hSelect]
    exact hExtend
  · intro x hx
    rcases (List.forall₂_iff_zip.mp hAll).2 hx with ⟨e, -, hFills⟩ | ⟨-, hZero⟩
    · exact Or.inl hFills.shape
    · right
      rw [Graph.literal?, hZero]
      rfl
  · intro K _ I inputs tangents hI hExponents
    obtain ⟨seeds', -, hFollows'⟩ := @follows_recordReverse K _ I inputs t.recorder t.graph wrt
      h.graph hI.div_eq rfl (t.bindings.map (·.value)) hLeaf t.outputs h.output_lt
    obtain ⟨c', hPlan', hExtends', -, hAll'⟩ :=
      (hFollows' inputs fun _ _ _ _ => rfl).ok_of_run hRun
    obtain rfl : seeds = seeds' := seedArguments_injective
      (List.append_cancel_left (hExtends.arguments.symm.trans hExtends'.arguments))
    have hOutputs : ∀ o ∈ seedArrays inputs t.outputs seeds, o.1 < t.graph.size := by
      intro o ho
      obtain ⟨y, hy, rfl⟩ := List.mem_map.mp ho
      exact h.output_lt y.1 (List.of_mem_zip hy).1
    have hInner := inner_plan h.graph hSelects.nodup hLeaf hOutputs hPlan' tangents
    calc ((t.outputs.zip seeds).map fun x => (t.graph.shape x.1).inner (inputs x.2)
            (t.graph.tangent I inputs (directionOf wrt tangents) x.1)).sum
        = ((seedArrays inputs t.outputs seeds).map fun o => (t.graph.shape o.1).inner o.2
            (t.graph.recordedTangent I inputs (directionOf wrt tangents) o.1)).sum := by
          rw [seedArrays, List.map_map]
          congr 1
          apply List.map_congr_left
          intro x _
          exact Shape.inner_congr_right fun p hp =>
            Graph.tangent_eq_recordedTangent h.graph hI hExponents _ hp
      _ = (wrt.map fun a => (t.graph.shape a).inner (c'.entries a) (tangents a)).sum := hInner
      _ = ((wrt.zip ws).map fun x => (t.graph.shape x.1).inner
            (r.graph.entry I inputs x.2) (tangents x.1)).sum := by
          apply sum_zip_of_forall₂ hAll'
          intro a w hIs
          apply Finset.sum_congr rfl
          intro p hp
          rcases hIs with ⟨e, hc, hFills⟩ | ⟨hc, hZero⟩
          · rw [Cotangents.entries, hc, hFills.entry p hp]
            rfl
          · rw [Cotangents.entries, hc, Graph.entry_of_literal hZero, hI.literal_zero]
            rfl

/-- The reverse derivative of the sum of two cubes has one seed and one output. -/
theorem Trace.vjp_sound_sumOfCubes :
    ∃ t' seed cotangent, sumOfCubes.differentiate .vjp [0] = .ok t' ∧
      t'.arguments = [⟨0, some "x", false⟩, ⟨seed, none, true⟩] ∧ t'.outputs = [cotangent] ∧
      ∀ inputs tangents : ValueId → Position → ℚ,
        inputs seed [] *
            sumOfCubes.graph.tangent smallArithmetic inputs (directionOf [0] tangents) 3 [] =
          Shape.inner [2] (t'.graph.entry smallArithmetic inputs cotangent) (tangents 0) := by
  obtain ⟨wrt, t', seeds, hSelect, -, hDerivative, hArguments, hSeeds, hLength, -, hInner⟩ :=
    @Trace.vjp_sound.{0} _ _ sumOfCubes_ofDraft sumOfCubes_hasRules (by decide) [0] (by decide)
  obtain rfl : wrt = [0] := by
    have hZero : selectArguments sumOfCubes [0] = .ok [0] := by decide
    exact Except.ok.inj (hSelect.symm.trans hZero)
  obtain ⟨seed, rfl⟩ := List.length_eq_one_iff.mp hSeeds.length_eq
  obtain ⟨cotangent, hOutputs⟩ := List.length_eq_one_iff.mp hLength
  refine ⟨t', seed, cotangent, hDerivative, hArguments, hOutputs, ?_⟩
  intro inputs tangents
  have h := hInner ℚ smallArithmetic inputs tangents smallArithmetic_exact
    sumOfCubes_exactExponents
  rw [hOutputs] at h
  simpa [sumOfCubes, Graph.shape, Graph.get?, Shape.inner] using h

end ArrayEquations
