import ArrayEquations.Proofs.Extension
import ArrayEquations.Proofs.ForwardRule

/-!
# ArrayEquations — forward differentiation computes the derivative

The tangents of the arguments are new inputs. Carrying them through the graph in order
keeps one invariant: every value passed so far has a recorded tangent that represents its
derivative. The outputs of the derivative are the old outputs, which nothing has changed,
and their tangents.

## Main definitions

* `Forward.Carried` — the invariant.

## Main results

* `Trace.jvp_sound` — the tangents of the outputs are those on dual numbers.
-/

namespace ArrayEquations

universe u

variable {K : Type*} [Field K]

namespace Forward

open Recording Differentiating

/-! ## Seeds -/

/-- After the tangent inputs are made: each chosen argument has its own, and no other value has a
tangent. -/
structure Seeded (r r' : Recorder) (wrt seeds : List ValueId) (d : Derivatives) : Prop where
  recorder : r.Extends r' (seedArguments seeds)
  fresh : r.graph.Seeds r'.graph wrt seeds
  seed_eq : ∀ x ∈ wrt.zip seeds, d x.1 = some x.2
  none_eq : ∀ v ∉ wrt, d v = none

theorem ensures_seedTangents {r : Recorder} {wrt : List ValueId} (hNodup : wrt.Nodup)
    (hLt : ∀ a ∈ wrt, a < r.graph.size) :
    Ensures (seedTangents wrt) r fun d r' => ∃ seeds, Seeded r r' wrt seeds d := by
  unfold seedTangents
  apply Ensures.foldlM fun before d r' => ∃ seeds, Seeded r r' before seeds d
  · exact ⟨[], Recorder.Extends.refl r, Graph.Seeds.nil _ _, by simp, fun _ _ => rfl⟩
  · rintro before a after d r₁ hSplit ⟨seeds, hSeeded⟩
    have hGraph := hSeeded.recorder.graph
    have ha : a < r.graph.size := hLt a (by rw [hSplit]; simp)
    -- The arguments are distinct, so this one has no seed yet.
    have hNew : a ∉ before := by
      rw [hSplit, List.nodup_append] at hNodup
      exact fun hMem => hNodup.2.2 a hMem a List.mem_cons_self rfl
    apply Ensures.bind (ensures_derivativeInput .tangent a)
    rintro s r₂ ⟨hExtends, hs, hGet⟩
    rw [hGraph.shape_eq ha] at hGet
    refine ⟨seeds ++ [s], ?_, hSeeded.fresh.push hGraph hExtends.graph hs hGet, ?_, ?_⟩
    · have := hSeeded.recorder.trans hExtends
      rwa [seedArguments, List.map_append]
    · intro x hx
      rw [List.zip_append hSeeded.fresh.length_eq.symm] at hx
      rcases List.mem_append.mp hx with hx | hx
      · have hNe : x.1 ≠ a := fun hEq => hNew (hEq ▸ (List.of_mem_zip hx).1)
        exact (if_neg hNe).trans (hSeeded.seed_eq x hx)
      · obtain rfl : x = (a, s) := by simpa using hx
        exact if_pos rfl
    · intro v hv
      have hNe : v ≠ a := fun hEq => hv (by rw [hEq]; simp)
      exact (if_neg hNe).trans (hSeeded.none_eq v fun hMem => hv (by simp [hMem]))

/-! ## The way through the graph -/

/-- The invariant: the values passed, and all inputs and constants, have a recorded tangent that
represents theirs, and the operations ahead have none yet. -/
structure Carried (I : Interpretation K) (inputs tangents : ValueId → Position → K) (g : Graph)
    (passed : List ValueId) (d : Derivatives) (r : Recorder) : Prop where
  graph : g.Extends r.graph
  represents : ∀ v < g.size, v ∈ passed ∨ g.op? v = none →
    r.graph.Represents I inputs (g.shape v) (d v) (g.recordedTangent I inputs tangents v)
  ahead : ∀ v, v ∉ passed → g.op? v ≠ none → d v = none
  not_literal : ∀ v t, d v = some t → g.literal? v = none

variable {I : Interpretation K} {inputs tangents : ValueId → Position → K} {g : Graph}

private theorem range_eq_append_cons {n a : Nat} {before after : List Nat}
    (h : List.range n = before ++ a :: after) : before = List.range a ∧ a < n := by
  have hLength : before.length < n := by
    have := congrArg List.length h
    simp at this
    omega
  have ha : a = before.length := by
    have hGet : (List.range n)[before.length]? = some a := by
      rw [h]
      simp
    rw [List.getElem?_range hLength] at hGet
    exact (Option.some.inj hGet).symm
  refine ⟨?_, ha ▸ hLength⟩
  have hTake : before = (List.range n).take before.length := by
    rw [h]
    simp
  rw [hTake, List.take_range, ha, Nat.min_eq_left (Nat.le_of_lt hLength)]

/-- A value is passed once its own tangent is represented. -/
private theorem Carried.pass {passed : List ValueId} {v : ValueId} {d d' : Derivatives}
    {r r' : Recorder} (h : Carried I inputs tangents g passed d r) (hExtends : r.Extends r')
    (hSame : ∀ w, w ≠ v → d' w = d w)
    (hNew : r'.graph.Represents I inputs (g.shape v) (d' v)
      (g.recordedTangent I inputs tangents v))
    (hLiteral : ∀ t, d' v = some t → g.literal? v = none) :
    Carried I inputs tangents g (passed ++ [v]) d' r' := by
  refine ⟨h.graph.trans hExtends.graph, ?_, ?_, ?_⟩
  · -- The others are as they were, for only the value that is passed may change.
    intro w hw hPassed
    by_cases hEq : w = v
    · exact hEq ▸ hNew
    · rw [hSame w hEq]
      apply (h.represents w hw _).extend hExtends.graph
      rcases hPassed with hPassed | hPassed
      · rcases List.mem_append.mp hPassed with hPassed | hPassed
        · exact Or.inl hPassed
        · exact absurd (List.mem_singleton.mp hPassed) hEq
      · exact Or.inr hPassed
  · intro w hw hOp
    rw [hSame w fun hEq => hw (by simp [hEq])]
    exact h.ahead w (fun hMem => hw (List.mem_append_left _ hMem)) hOp
  · intro w t ht
    by_cases hEq : w = v
    · exact hEq ▸ hLiteral t (hEq ▸ ht)
    · exact h.not_literal w t (hSame w hEq ▸ ht)

/-- One value is passed. -/
theorem yields_carryTangent (hg : g.WellFormed) (hRecorded : g.Recorded)
    (hDiv : ∀ x y, I.div x y = x / y) (hRules : g.HasRules) {v : ValueId} (hv : v < g.size)
    {d : Derivatives} {r : Recorder}
    (hCarried : Carried I inputs tangents g (List.range v) d r) :
    Yields (carryTangent g d v) r fun d' r' =>
      r.Extends r' ∧ Carried I inputs tangents g (List.range v ++ [v]) d' r' := by
  unfold carryTangent
  cases hOp : g.op? v with
  | none =>
    apply yields_pure
    exact ⟨Recorder.Extends.refl r, hCarried.pass (Recorder.Extends.refl r) (fun _ _ => rfl)
      (hCarried.represents v hv (Or.inr hOp)) (hCarried.not_literal v)⟩
  | some x =>
    obtain ⟨op, operands⟩ := x
    have hGet := Graph.op?_eq_some hOp
    have hBefore := hg.before hGet
    -- All operands have been passed, for they come before their operation.
    have hReady : Ready I inputs tangents g r d operands := by
      refine ⟨hCarried.graph, fun w hw => Nat.lt_trans (hBefore w hw) hv, ?_,
        hCarried.not_literal⟩
      intro w hw
      exact hCarried.represents w (Nat.lt_trans (hBefore w hw) hv)
        (Or.inl (List.mem_range.mpr (hBefore w hw)))
    have hNone : d v = none := hCarried.ahead v (by simp) (by simp [hOp])
    have hLiteral : g.literal? v = none := by
      rw [Graph.literal?, hGet]
      rfl
    apply Yields.bind (yields_tangentOf hg hRecorded hDiv hGet
      (fun name hEq => hRules v name operands (hEq ▸ hOp)) hReady)
    rintro t r₁ ⟨hExtends, hTangent⟩
    cases t with
    | none =>
      apply yields_pure
      exact ⟨hExtends, hCarried.pass hExtends (fun _ _ => rfl) (hNone ▸ hTangent)
        fun _ _ => hLiteral⟩
    | some t =>
      apply Yields.bind (yields_lift (ensures_tag .tangent v t))
      rintro ⟨⟩ r₂ ⟨hExtends', -⟩
      apply yields_pure
      have hAll := hExtends.trans hExtends'
      refine ⟨hAll, hCarried.pass hAll (fun w hw => if_neg hw) ?_ fun _ _ => hLiteral⟩
      rw [show d.set v t v = some t from if_pos rfl]
      exact hTangent.extend hExtends'.graph

/-! ## Outputs -/

/-- A recorded output tangent: an array of the tangent's entries, or the constant zero where
they are zero. -/
def IsTangent (I : Interpretation K) (inputs tangents : ValueId → Position → K) (g g' : Graph)
    (o t : ValueId) : Prop :=
  g'.Fills I inputs (g.shape o) t (g.recordedTangent I inputs tangents o) ∨
    g'.get? t = some ⟨.literal 0, []⟩ ∧
      ∀ p ∈ (g.shape o).box, g.recordedTangent I inputs tangents o p = 0

theorem IsTangent.extend {g' g'' : Graph} {o t : ValueId}
    (h : IsTangent I inputs tangents g g' o t) (hExtends : g'.Extends g'') :
    IsTangent I inputs tangents g g'' o t :=
  h.imp (·.extend hExtends) (·.imp_left hExtends.get?_of_some)

theorem IsTangent.lt {g' : Graph} {o t : ValueId} (h : IsTangent I inputs tangents g g' o t) :
    t < g'.size := by
  rcases h with h | ⟨h, -⟩
  · exact h.lt
  · exact Graph.lt_size_of_get? h

theorem ensures_outputTangent {d : Derivatives} {r : Recorder} {o : ValueId}
    (h : r.graph.Represents I inputs (g.shape o) (d o)
      (g.recordedTangent I inputs tangents o)) :
    Ensures (outputTangent d o) r fun t r' =>
      r.Extends r' ∧ IsTangent I inputs tangents g r'.graph o t := by
  apply Ensures.imp (ensures_knownOrZero .tangent o (d o))
  rintro t r' ⟨hExtends, hKnown | ⟨hNone, hZero⟩⟩
  · rw [hKnown] at h
    exact ⟨hExtends, Or.inl (h.extend hExtends.graph)⟩
  · rw [hNone] at h
    exact ⟨hExtends, Or.inr ⟨hZero, h⟩⟩

theorem ensures_outputTangents {d : Derivatives} {r : Recorder} {outputs : List ValueId}
    (h : ∀ o ∈ outputs, r.graph.Represents I inputs (g.shape o) (d o)
      (g.recordedTangent I inputs tangents o)) :
    Ensures (outputTangents d outputs) r fun ts r' => r.Extends r' ∧
      List.Forall₂ (IsTangent I inputs tangents g r'.graph) outputs ts := by
  apply ensures_mapM_forall₂ (R := IsTangent I inputs tangents g) IsTangent.extend
  intro o ho r₁ hExtends
  exact ensures_outputTangent ((h o ho).extend hExtends.graph)

/-! ## The whole differentiation -/

/-- The tangents that the seeds stand for. -/
private def seedDirection (inputs : ValueId → Position → K) (d : Derivatives) :
    ValueId → Position → K :=
  fun v =>
    match d v with
    | some s => inputs s
    | none => 0

private theorem Seeded.direction_eq {r r' : Recorder} {wrt seeds : List ValueId} {d : Derivatives}
    (h : Seeded r r' wrt seeds d) (hInputs : ∀ x ∈ wrt.zip seeds, inputs x.2 = tangents x.1) :
    seedDirection inputs d = directionOf wrt tangents := by
  funext v
  unfold seedDirection directionOf
  by_cases hv : v ∈ wrt
  · obtain ⟨s, hMem⟩ := h.fresh.exists_seed hv
    rw [if_pos hv, h.seed_eq _ hMem]
    exact hInputs _ hMem
  · rw [if_neg hv, h.none_eq v hv]

/-- Once the seeds are there, all inputs and constants have their tangents. -/
private theorem Seeded.carried {r r' : Recorder} {wrt seeds : List ValueId} {d : Derivatives}
    (hGraph : r.graph = g) (h : Seeded r r' wrt seeds d)
    (hLeaf : ∀ a ∈ wrt, g.get? a = some ⟨.leaf, g.shape a⟩) :
    Carried I inputs (seedDirection inputs d) g [] d r' := by
  subst hGraph
  have hMem : ∀ v s, d v = some s → v ∈ wrt := by
    intro v s hd
    by_contra hNot
    rw [h.none_eq v hNot] at hd
    exact absurd hd (by simp)
  -- Nothing has been passed yet, so only inputs and constants are spoken of.
  refine ⟨h.recorder.graph, ?_, ?_, ?_⟩
  · intro v hv hPassed
    have hOp : r.graph.op? v = none := by simpa using hPassed
    cases hd : d v with
    | some s =>
      have hvWrt := hMem v s hd
      obtain ⟨s', hZip⟩ := h.fresh.exists_seed hvWrt
      obtain rfl := Option.some.inj ((h.seed_eq _ hZip).symm.trans hd)
      have hSeed := h.fresh.leaf _ hZip
      refine ⟨Graph.lt_size_of_get? hSeed, Graph.shape_of_get? hSeed, ?_⟩
      intro p _
      rw [Graph.entry_of_leaf hSeed, Graph.recordedTangent_of_leaf (hLeaf _ hvWrt), seedDirection,
        hd]
    | none =>
      intro p _
      obtain ⟨⟨content, s⟩, hGet⟩ := Graph.exists_get? hv
      cases content with
      | leaf => rw [Graph.recordedTangent_of_leaf hGet, seedDirection, hd]; rfl
      | literal x => exact Graph.recordedTangent_of_literal hGet p
      | op op operands =>
        rw [Graph.op?_of_get? hGet] at hOp
        exact absurd hOp (by simp)
  · intro v _ hOp
    by_contra hSome
    obtain ⟨s, hd⟩ := Option.ne_none_iff_exists'.mp hSome
    apply hOp
    rw [Graph.op?, hLeaf v (hMem v s hd)]
    rfl
  · intro v s hd
    rw [Graph.literal?, hLeaf v (hMem v s hd)]
    rfl

/-- What the recording of a forward differentiation leaves behind. -/
theorem yields_recordForward (hg : g.WellFormed) (hRecorded : g.Recorded)
    (hDiv : ∀ x y, I.div x y = x / y) (hRules : g.HasRules) {r : Recorder} (hGraph : r.graph = g)
    {wrt outputs : List ValueId} (hNodup : wrt.Nodup)
    (hLeaf : ∀ a ∈ wrt, g.get? a = some ⟨.leaf, g.shape a⟩) (hOutputs : ∀ o ∈ outputs, o < g.size) :
    Yields (recordForward g wrt outputs) r fun result r' =>
      ∃ seeds ts, result = outputs ++ ts ∧ r.Extends r' (seedArguments seeds) ∧
        g.Seeds r'.graph wrt seeds ∧ ∀ tangents : ValueId → Position → K,
          (∀ x ∈ wrt.zip seeds, inputs x.2 = tangents x.1) →
          List.Forall₂ (IsTangent I inputs (directionOf wrt tangents) g r'.graph) outputs ts := by
  unfold recordForward
  apply Yields.bind (yields_lift (ensures_seedTangents hNodup fun a ha => by
    rw [hGraph]
    exact Graph.lt_size_of_get? (hLeaf a ha)))
  rintro d r₁ ⟨seeds, hSeeded⟩
  -- The direction is read off the seeds, so it is there before the tangents are given.
  have hStart : Carried I inputs (seedDirection inputs d) g [] d r₁ := hSeeded.carried hGraph hLeaf
  have hLoop : Yields (g.ids.foldlM (carryTangent g) d) r₁ fun d' r' => r₁.Extends r' ∧
      Carried I inputs (seedDirection inputs d) g g.ids d' r' := by
    apply Yields.foldlM fun before d' r' => r₁.Extends r' ∧
      Carried I inputs (seedDirection inputs d) g before d' r'
    · exact ⟨Recorder.Extends.refl _, hStart⟩
    · rintro before v after d' r₂ hSplit ⟨hExtends, hCarried⟩
      obtain ⟨rfl, hv⟩ := range_eq_append_cons hSplit
      apply Yields.imp (yields_carryTangent hg hRecorded hDiv hRules hv hCarried)
      rintro d'' r₃ ⟨hExtends', hCarried'⟩
      exact ⟨hExtends.trans hExtends', hCarried'⟩
  apply Yields.bind hLoop
  rintro d' r₂ ⟨hExtends₂, hCarried⟩
  apply Yields.bind (yields_lift (ensures_outputTangents fun o ho =>
    hCarried.represents o (hOutputs o ho) (Or.inl (List.mem_range.mpr (hOutputs o ho)))))
  rintro ts r₃ ⟨hExtends₃, hTangents⟩
  apply yields_pure
  have hExtends := (hSeeded.recorder.trans hExtends₂).trans hExtends₃
  refine ⟨seeds, ts, rfl, by simpa using hExtends, ?_, ?_⟩
  · exact hGraph ▸ hSeeded.fresh.extend (hExtends₂.trans hExtends₃).graph
  · intro tangents hInputs
    rw [← hSeeded.direction_eq hInputs]
    exact hTangents

end Forward

open Forward Differentiating in
/-- **Forward differentiation computes the derivative.** For a trace of operations that have
rules, in the form in which they are recorded, and for any valid positions, there is a
derivative. Its inputs are those of the trace and a tangent for each chosen argument. Its
outputs are those of the trace, which compute what they did, and one more for each of them:
with exact arithmetic this is the output's tangent on dual numbers, where it is not the
constant zero in the tangent's place. -/
theorem Trace.jvp_sound {t : Trace} (h : t.WellFormed) (hRecorded : t.graph.Recorded)
    (hRules : t.graph.HasRules)
    {positions : List Nat} (hPositions : ∀ p ∈ positions, p < t.arguments.length) :
    ∃ wrt t' seeds ts, selectArguments t positions = .ok wrt ∧
      t.differentiate .jvp positions = .ok t' ∧
      t'.arguments = t.arguments ++ seedArguments seeds ∧
      t.graph.Seeds t'.graph wrt seeds ∧
      t'.outputs = t.outputs ++ ts ∧ ts.length = t.outputs.length ∧
      (∀ x ∈ t.outputs.zip ts, t'.graph.shape x.2 = t.graph.shape x.1 ∨
        t'.graph.literal? x.2 = some 0) ∧
      ∀ (K : Type u) [Field K] (I : Interpretation K) (inputs tangents : ValueId → Position → K),
        I.Exact → t.graph.ExactExponents I →
        (∀ x ∈ wrt.zip seeds, inputs x.2 = tangents x.1) →
        (∀ o ∈ t.outputs, t'.graph.tensor I inputs o = t.graph.tensor I inputs o) ∧
        ∀ x ∈ t.outputs.zip ts, ∀ p ∈ (t.graph.shape x.1).box,
          t'.graph.entry I inputs x.2 p =
            t.graph.tangent I inputs (directionOf wrt tangents) x.1 p := by
  obtain ⟨wrt, hSelect, hSelects⟩ := t.exists_selectArguments h hPositions
  -- Whether there is a derivative, and which one, does not depend on the field.
  obtain ⟨result, r, hRun, seeds, ts, rfl, hExtends, hSeeds, hPlain⟩ :=
    (@yields_recordForward ℚ _ plainReading 0 t.graph h.graph hRecorded (fun _ _ => rfl) hRules
      t.recorder rfl wrt t.outputs hSelects.nodup (fun a ha => hSelects.leaf h ha)
      h.output_lt).exists_run
  obtain ⟨hLength, hPlain⟩ := List.forall₂_iff_zip.mp (hPlain 0 fun _ _ => rfl)
  have hLt : ∀ o ∈ t.outputs ++ ts, o < r.graph.size := by
    intro o ho
    rcases List.mem_append.mp ho with ho | ho
    · exact Nat.lt_of_lt_of_le (h.output_lt o ho) hExtends.graph.size_le
    · obtain ⟨k, hk, rfl⟩ := List.getElem_of_mem ho
      have hk' : k < (t.outputs.zip ts).length := by
        rw [List.length_zip, hLength, Nat.min_self]
        exact hk
      have hZip := List.getElem_mem hk'
      rw [List.getElem_zip] at hZip
      exact (hPlain hZip).lt
  have hExtend := Trace.extend_eq_ok h hRun hExtends (by simp [h.outputs_ne_nil]) hLt
  refine ⟨wrt, ⟨t.name, r.graph, r.arguments, r.bindings, r.tags, t.outputs ++ ts⟩, seeds, ts,
    hSelect, ?_, hExtends.arguments, hSeeds, rfl, hLength.symm, ?_, ?_⟩
  · rw [differentiate, hSelect]
    exact hExtend
  · intro x hx
    rcases hPlain hx with hFills | ⟨hZero, -⟩
    · exact Or.inl hFills.shape
    · right
      rw [Graph.literal?, hZero]
      rfl
  · intro K _ I inputs tangents hI hExponents hInputs
    obtain ⟨seeds', ts', hOutputs, hExtends', -, hTangents⟩ :=
      (@yields_recordForward K _ I inputs t.graph h.graph hRecorded hI.div_eq hRules t.recorder
        rfl wrt t.outputs hSelects.nodup (fun a ha => hSelects.leaf h ha)
        h.output_lt).run_eq hRun
    obtain rfl := List.append_cancel_left hOutputs
    obtain rfl : seeds = seeds' := seedArguments_injective
      (List.append_cancel_left (hExtends.arguments.symm.trans hExtends'.arguments))
    refine ⟨fun o ho => Graph.tensor_eq_of_extends hExtends.graph (h.output_lt o ho), ?_⟩
    intro x hx p hp
    rw [Graph.tangent_eq_recordedTangent h.graph hI hExponents _ hp]
    rcases (List.forall₂_iff_zip.mp (hTangents tangents hInputs)).2 hx with hFills | ⟨hZero, hNone⟩
    · exact hFills.entry p hp
    · rw [Graph.entry_of_literal hZero, hI.literal_zero, hNone p hp]

/-- The derivative of the sum of two cubes has one more input and one more output. -/
theorem Trace.jvp_sound_sumOfCubes :
    ∃ t' seed tangent, sumOfCubes.differentiate .jvp [0] = .ok t' ∧
      t'.arguments = [⟨0, some "x", false⟩, ⟨seed, none, true⟩] ∧ t'.outputs = [3, tangent] ∧
      ∀ inputs tangents : ValueId → Position → ℚ, inputs seed = tangents 0 →
        t'.graph.entry smallArithmetic inputs tangent [] =
          sumOfCubes.graph.tangent smallArithmetic inputs (directionOf [0] tangents) 3 [] := by
  obtain ⟨wrt, t', seeds, ts, hSelect, hDerivative, hArguments, hSeeds, hOutputs, hLength, -,
    hTangents⟩ := @Trace.jvp_sound.{0} sumOfCubes (Trace.wellFormed_of_ofDraft sumOfCubes_ofDraft)
      sumOfCubes_recorded sumOfCubes_hasRules [0] (by decide)
  obtain rfl : wrt = [0] := by
    have hZero : selectArguments sumOfCubes [0] = .ok [0] := by decide
    exact Except.ok.inj (hSelect.symm.trans hZero)
  obtain ⟨seed, rfl⟩ := List.length_eq_one_iff.mp hSeeds.length_eq
  obtain ⟨tangent, rfl⟩ := List.length_eq_one_iff.mp hLength
  refine ⟨t', seed, tangent, hDerivative, hArguments, hOutputs, ?_⟩
  intro inputs tangents hInputs
  exact (hTangents ℚ smallArithmetic inputs tangents smallArithmetic_exact
    sumOfCubes_exactExponents (by simpa using hInputs)).2 (3, tangent) (by simp [sumOfCubes]) []
      (show [] ∈ Shape.box [] by decide)

end ArrayEquations
