import ArrayEquations.Proofs.RecordedTrace

/-!
# ArrayEquations — the form of recorded traces

More holds of a recorded trace than an import checks. A recording stretches the operands of an
elementwise operation before it adds the operation, so that all of them but constants have the
shape of the result. And it has no derivative inputs unless it has tags, for such an input is
tagged as soon as it is there.

## Main definitions

* `Recorder.Adds` — only values were added, and those in recorded form.
* `Recorder.Formed` — what every call of a recording preserves besides soundness.

## Main results

* `RecordingCall.formed` — one call preserves the form.
* `Trace.IsRecorded.recorded` — recorded traces are in recorded form.
* `Trace.IsRecorded.derivative_eq_false` — those without tags have no derivative inputs.
-/

namespace ArrayEquations

/-! ## Values in recorded form -/

/-- Operations come after their operands, and elementwise ones are in recorded form. -/
structure Graph.InForm (g : Graph) : Prop where
  before : ∀ {v op operands s}, g.get? v = some ⟨.op op operands, s⟩ → ∀ w ∈ operands, w < v
  recorded : g.Recorded

theorem Graph.inForm_empty : Graph.empty.InForm :=
  ⟨fun h => absurd h (by simp [get?, empty]), fun h => absurd h (by simp [get?, empty])⟩

/-- A value that is in form when it is added stays so, for its operands are values of before. -/
theorem Graph.InForm.push {g : Graph} (h : g.InForm) {new : Value}
    (hBefore : ∀ op operands s, new = ⟨.op op operands, s⟩ → ∀ w ∈ operands, w < g.size)
    (hForm : ∀ op operands s, new = ⟨.op op operands, s⟩ → op.isElementwise = true →
      ∀ w ∈ operands, g.literal? w = none → g.shape w = s) : (g.push new).InForm := by
  have hExtends := Extends.push g new
  constructor
  · intro v op operands s hGet
    rcases get?_push hGet with hOld | ⟨rfl, hNew⟩
    · exact h.before hOld
    · exact hBefore op operands s hNew.symm
  · intro v op operands s hGet hElementwise w hw hLiteral
    -- The operands are values of before, and these are what they were.
    have hKept : ∀ {u}, u < g.size → ∀ {s}, g.literal? u = (g.push new).literal? u ∧
        (g.shape u = s → (g.push new).shape u = s) := fun hu _ =>
      ⟨(hExtends.literal?_eq hu).symm, fun hShape => (hExtends.shape_eq hu).trans hShape⟩
    rcases get?_push hGet with hOld | ⟨rfl, hNew⟩
    · obtain ⟨hEq, hShape⟩ := hKept (Nat.lt_trans (h.before hOld w hw) (lt_size_of_get? hOld))
      exact hShape (h.recorded hOld hElementwise w hw (hEq.trans hLiteral))
    · obtain ⟨hEq, hShape⟩ := hKept (hBefore op operands s hNew.symm w hw)
      exact hShape (hForm op operands s hNew.symm hElementwise w hw (hEq.trans hLiteral))

/-- The second recorder has more values than the first, and is in form if the first is. It has no
more arguments and tags. -/
structure Recorder.Adds (r r' : Recorder) : Prop where
  graph : r.graph.Extends r'.graph
  inForm : r.graph.InForm → r'.graph.InForm
  arguments : r'.arguments = r.arguments
  tags : r'.tags = r.tags

namespace Recorder.Adds

theorem refl (r : Recorder) : r.Adds r := ⟨Graph.Extends.refl _, id, rfl, rfl⟩

theorem trans {r₁ r₂ r₃ : Recorder} (h₁ : r₁.Adds r₂) (h₂ : r₂.Adds r₃) : r₁.Adds r₃ :=
  ⟨h₁.graph.trans h₂.graph, fun h => h₂.inForm (h₁.inForm h), h₂.arguments.trans h₁.arguments,
    h₂.tags.trans h₁.tags⟩

end Recorder.Adds

/-! ## Operations -/

namespace Recording

/-- The action adds values in recorded form, and nothing else. -/
def AddsOnly (m : Recording ValueId) (r : Recorder) : Prop := Ensures m r fun _ r' => r.Adds r'

variable {r : Recorder} {a b : ValueId}

theorem addsOnly_literal (x : Float) : AddsOnly (literal x) r := by
  refine ⟨Graph.Extends.push _ _, fun h => h.push ?_ ?_, rfl, rfl⟩
  · intro op operands s hNew
    exact absurd hNew (by simp)
  · intro op operands s hNew
    exact absurd hNew (by simp)

theorem addsOnly_fail (e : RecordingError) : AddsOnly (fail e) r := by
  let r₁ : Recorder := { r with error := r.error.or (some e) }
  have hLiteral : AddsOnly (literal 0) r₁ := addsOnly_literal 0
  exact { hLiteral with }

/-- An operation that is not elementwise, or whose operands are constants or of its shape. -/
theorem addsOnly_pushShaped {op : Operation} {operands : List ValueId} {s : Shape}
    (hLt : ∀ w ∈ operands, w < r.graph.size)
    (hForm : op.isElementwise = true → ∀ w ∈ operands, r.graph.literal? w = none →
      r.graph.shape w = s) : AddsOnly (pushShaped op operands s) r := by
  refine ⟨Graph.Extends.push _ _, fun h => h.push ?_ ?_, rfl, rfl⟩
  · rintro op' operands' s' hNew
    cases hNew
    exact hLt
  · rintro op' operands' s' hNew
    cases hNew
    exact hForm

/-- An operation whose shape follows from its operands. An elementwise one has one operand. -/
theorem addsOnly_push {op : Operation} {operands : List ValueId}
    (hLt : ∀ w ∈ operands, w < r.graph.size)
    (hUnary : op.isElementwise = true → op = .neg ∨ ∃ f, op = .call f) :
    AddsOnly (push op operands) r := by
  unfold push AddsOnly
  apply ensures_get_bind
  simp only
  cases hShape : op.resultShape (operands.map r.graph.shape) with
  | error e => exact addsOnly_fail _
  | ok s =>
    apply addsOnly_pushShaped hLt
    intro hElementwise w hw _
    -- A negation and a function have the shape of their operand.
    have hFits := Operation.fits_of_resultShape hShape
    have hOne : operands.map r.graph.shape = [s] := by
      rcases hUnary hElementwise with rfl | ⟨f, rfl⟩
      · generalize operands.map r.graph.shape = shapes at hFits
        cases hFits
        rfl
      · generalize operands.map r.graph.shape = shapes at hFits
        cases hFits
        rfl
    obtain ⟨v, rfl, rfl⟩ := eq_singleton_of_map hOne
    rw [List.mem_singleton.mp hw]

/-- A stretched operand is a constant, or it has the shape it is stretched to. -/
theorem ensures_stretch_inForm {out : Shape} (ha : a < r.graph.size) :
    Ensures (stretch a (r.graph.shape a) out) r fun v r' => r.Adds r' ∧ v < r'.graph.size ∧
      (r'.graph.literal? v = none → r'.graph.shape v = out) := by
  unfold stretch
  apply ensures_literalOf?_bind
  split
  · rename_i hStays
    refine ensures_pure ⟨Recorder.Adds.refl r, ha, ?_⟩
    intro hLiteral
    simpa [hLiteral] using hStays
  · have hPush : AddsOnly (pushShaped (.broadcast (trailingDims (r.graph.shape a).rank out.rank))
        [a] out) r := addsOnly_pushShaped (by simpa using ha) (by simp [Operation.isElementwise])
    refine ⟨hPush, ?_, fun _ => Graph.shape_of_get? (Graph.get?_push_size _ _)⟩
    show r.graph.size < (r.graph.push _).size
    rw [Graph.size_push]
    exact Nat.lt_succ_self _

/-- Both operands are stretched before the operation is added. -/
theorem addsOnly_elementwise (op : Operation) (ha : a < r.graph.size) (hb : b < r.graph.size) :
    AddsOnly (elementwise op a b) r := by
  unfold elementwise AddsOnly
  apply ensures_shapeOf_bind
  apply ensures_shapeOf_bind
  cases (r.graph.shape a).broadcast (r.graph.shape b) with
  | error e => exact addsOnly_fail _
  | ok out =>
    apply Ensures.bind (ensures_stretch_inForm ha)
    rintro a' r₁ ⟨hAdds₁, ha', haForm⟩
    have hb₁ : b < r₁.graph.size := Nat.lt_of_lt_of_le hb hAdds₁.graph.size_le
    have hStretch : Ensures (stretch b (r₁.graph.shape b) out) r₁ _ := ensures_stretch_inForm hb₁
    rw [hAdds₁.graph.shape_eq hb] at hStretch
    apply Ensures.bind hStretch
    rintro b' r₂ ⟨hAdds₂, hb', hbForm⟩
    -- The first operand is what it was when it was stretched.
    have ha₂ : a' < r₂.graph.size := Nat.lt_of_lt_of_le ha' hAdds₂.graph.size_le
    have haForm₂ : r₂.graph.literal? a' = none → r₂.graph.shape a' = out := by
      rw [hAdds₂.graph.literal?_eq ha', hAdds₂.graph.shape_eq ha']
      exact haForm
    have hLast : AddsOnly (pushShaped op [a', b'] out) r₂ :=
      addsOnly_pushShaped (by simp [ha₂, hb']) fun _ => by simpa using ⟨haForm₂, hbForm⟩
    exact (hAdds₁.trans hAdds₂).trans hLast

theorem addsOnly_matmul (ha : a < r.graph.size) (hb : b < r.graph.size) :
    AddsOnly (matmul a b) r := by
  unfold matmul AddsOnly
  apply ensures_shapeOf_bind
  apply ensures_shapeOf_bind
  simp only
  split
  · exact addsOnly_fail _
  · exact addsOnly_push (by simp [ha, hb]) (by simp [Operation.isElementwise])

theorem addsOnly_reshape (ha : a < r.graph.size) (target : Shape) :
    AddsOnly (reshape a target) r := by
  unfold reshape AddsOnly
  apply ensures_shapeOf_bind
  cases (r.graph.shape a).checkReshape target with
  | error e => exact addsOnly_fail _
  | ok _ => exact addsOnly_pushShaped (by simpa using ha) (by simp [Operation.isElementwise])

theorem addsOnly_broadcastTo (ha : a < r.graph.size) (target : Shape) :
    AddsOnly (broadcastTo a target) r := by
  unfold broadcastTo AddsOnly
  apply ensures_shapeOf_bind
  split
  · exact addsOnly_fail _
  · simp only
    cases (r.graph.shape a).checkBroadcast
        (trailingDims (r.graph.shape a).rank target.rank) target with
    | error e => exact addsOnly_fail _
    | ok _ => exact addsOnly_pushShaped (by simpa using ha) (by simp [Operation.isElementwise])

theorem addsOnly_sumAll (ha : a < r.graph.size) : AddsOnly (sumAll a) r := by
  unfold sumAll AddsOnly
  apply ensures_shapeOf_bind
  exact addsOnly_push (by simpa using ha) (by simp [Operation.isElementwise])

theorem addsOnly_transposeAll (ha : a < r.graph.size) : AddsOnly (transposeAll a) r := by
  unfold transposeAll AddsOnly
  apply ensures_shapeOf_bind
  exact addsOnly_push (by simpa using ha) (by simp [Operation.isElementwise])

theorem addsOnly_ofFamily (name : String) (family : Family) {operands : List ValueId}
    (hLt : ∀ w ∈ operands, w < r.graph.size) : AddsOnly (ofFamily name family operands) r := by
  unfold ofFamily
  split
  · exact addsOnly_elementwise _ (hLt _ (by simp)) (hLt _ (by simp))
  · exact addsOnly_elementwise _ (hLt _ (by simp)) (hLt _ (by simp))
  · exact addsOnly_elementwise _ (hLt _ (by simp)) (hLt _ (by simp))
  · exact addsOnly_matmul (hLt _ (by simp)) (hLt _ (by simp))
  · exact addsOnly_matmul (hLt _ (by simp)) (hLt _ (by simp))
  · exact addsOnly_push hLt (by simp)
  · exact addsOnly_push hLt (by simp)
  · exact addsOnly_sumAll (hLt _ (by simp))
  · exact addsOnly_transposeAll (hLt _ (by simp))
  · exact addsOnly_push hLt (by simp [Operation.isElementwise])
  · exact addsOnly_fail _

theorem addsOnly_primitive (name : String) {operands : List ValueId}
    (hLt : ∀ w ∈ operands, w < r.graph.size) : AddsOnly (primitive name operands) r := by
  unfold primitive
  split
  · exact addsOnly_push hLt (by simp [Operation.isElementwise])
  · split
    · exact addsOnly_fail _
    · exact addsOnly_ofFamily name _ hLt

end Recording

/-! ## Whole recordings -/

/-- The graph is in recorded form, and there are no derivative inputs without tags. -/
structure Recorder.Formed (r : Recorder) : Prop where
  graph : r.graph.InForm
  primal : r.tags = [] → ∀ a ∈ r.arguments, a.derivative = false

namespace Recorder.Formed

variable {r r' : Recorder}

theorem empty : Recorder.empty.Formed :=
  ⟨Graph.inForm_empty, fun _ _ ha => absurd ha List.not_mem_nil⟩

theorem adds (h : r.Formed) (hAdds : r.Adds r') : r'.Formed := by
  refine ⟨hAdds.inForm h.graph, ?_⟩
  rw [hAdds.tags, hAdds.arguments]
  exact h.primal

/-- An input does not disturb the form of the graph. -/
theorem graph_addArgument (h : r.Formed) (shape : Shape) :
    (r.graph.push ⟨.leaf, shape⟩).InForm := by
  refine h.graph.push ?_ ?_
  · intro op operands s hNew
    exact absurd hNew (by simp)
  · intro op operands s hNew
    exact absurd hNew (by simp)

theorem argument (h : r.Formed) (shape : Shape) (name : Option String) :
    (Recording.argument shape name r).2.Formed := by
  refine ⟨h.graph_addArgument shape, ?_⟩
  intro hTags a ha
  rcases List.mem_append.mp ha with ha | ha
  · exact h.primal hTags a ha
  · rw [List.mem_singleton.mp ha]

theorem tag (h : r.Formed) (kind : DerivativeKind) (primal value : ValueId) :
    (Recording.tag kind primal value r).2.Formed := by
  show Recorder.Formed (if r.tags.contains ⟨kind, primal, value⟩ then r
    else { r with tags := r.tags ++ [⟨kind, primal, value⟩] })
  split
  · exact h
  · exact ⟨h.graph, fun hTags => absurd hTags (by simp)⟩

/-- A derivative input is tagged. -/
theorem derivativeInput (h : r.Formed) (kind : DerivativeKind) (primal : ValueId) :
    (Recording.derivativeInput kind primal r).2.Formed := by
  let r₁ : Recorder := { r with
    graph := r.graph.push ⟨.leaf, r.graph.shape primal⟩
    arguments := r.arguments ++ [⟨r.graph.size, none, true⟩] }
  show Recorder.Formed (if r₁.tags.contains ⟨kind, primal, r.graph.size⟩ then r₁
    else { r₁ with tags := r₁.tags ++ [⟨kind, primal, r.graph.size⟩] })
  refine ⟨?_, ?_⟩
  · split
    · exact h.graph_addArgument _
    · exact h.graph_addArgument _
  · intro hTags
    split at hTags
    · rename_i hContains
      rw [hTags] at hContains
      exact absurd hContains (by simp)
    · exact absurd hTags (by simp)

theorem named (h : r.Formed) (v : ValueId) (name : String) (dependsOn : Option (List ValueId)) :
    (Recording.named v name dependsOn r).2.Formed := by
  have hNamed : Recording.Ensures (Recording.named v name dependsOn) r fun _ r' => r'.Formed := by
    unfold Recording.named
    apply Recording.ensures_get_bind
    cases addBinding r.graph r.bindings v name dependsOn with
    | ok bindings => exact { h with }
    | error e =>
      have hFail : Recording.AddsOnly (Recording.fail (.binding e)) r := Recording.addsOnly_fail _
      exact h.adds hFail
  exact hNamed

end Recorder.Formed

/-- **A call on values of the recording keeps its form.** -/
theorem RecordingCall.formed {c : RecordingCall} {r : Recorder}
    (hHandles : ∀ v ∈ c.handles, v < r.graph.size) (h : r.Formed) : (c.record r).2.Formed := by
  -- Inputs, tags and names have rules of their own; all other calls only add values.
  cases c with
  | argument shape name => exact h.argument shape name
  | derivativeInput kind primal => exact h.derivativeInput kind primal
  | tag kind primal value => exact h.tag kind primal value
  | named v name dependsOn => exact h.named v name dependsOn
  | literal x => exact h.adds (Recording.addsOnly_literal x)
  | fail message => exact h.adds (Recording.addsOnly_fail _)
  | primitive name operands => exact h.adds (Recording.addsOnly_primitive name hHandles)
  | arith op a b =>
    exact h.adds (Recording.addsOnly_elementwise _ (hHandles a (by simp [handles]))
      (hHandles b (by simp [handles])))
  | compare c a b =>
    exact h.adds (Recording.addsOnly_elementwise _ (hHandles a (by simp [handles]))
      (hHandles b (by simp [handles])))
  | matmul a b =>
    exact h.adds (Recording.addsOnly_matmul (hHandles a (by simp [handles]))
      (hHandles b (by simp [handles])))
  | sumAll a => exact h.adds (Recording.addsOnly_sumAll (hHandles a (by simp [handles])))
  | reshape a target =>
    exact h.adds (Recording.addsOnly_reshape (hHandles a (by simp [handles])) target)
  | broadcastTo a target =>
    exact h.adds (Recording.addsOnly_broadcastTo (hHandles a (by simp [handles])) target)
  | neg | call => exact h.adds (Recording.addsOnly_push hHandles (by simp))
  | contract | sum | transpose | cast =>
    exact h.adds (Recording.addsOnly_push hHandles (by simp [Operation.isElementwise]))

/-- **A list of calls keeps the form**, as each of its calls does. -/
theorem Recorder.formed_after? {r r' : Recorder} {calls : List RecordingCall} (h : r.Formed)
    (hAfter : r.after? calls = some r') : r'.Formed := by
  induction calls generalizing r with
  | nil =>
    obtain rfl := Option.some.inj hAfter
    exact h
  | cons c calls ih =>
    rw [after?] at hAfter
    split at hAfter
    · rename_i hHandles
      have hLt : ∀ v ∈ c.handles, v < r.graph.size := by
        simpa [Graph.has] using hHandles
      exact ih (RecordingCall.formed hLt h) hAfter
    · exact absurd hAfter (by simp)

namespace Trace.IsRecorded

variable {t : Trace}

private theorem exists_formed (h : t.IsRecorded) :
    ∃ r : Recorder, r.Formed ∧ t.graph = r.graph ∧ t.arguments = r.arguments ∧ t.tags = r.tags := by
  obtain ⟨calls, r, name, outputs, hAfter, hFinish⟩ := h
  obtain ⟨-, -, -, rfl⟩ := Recorder.finish_eq_ok hFinish
  exact ⟨r, Recorder.formed_after? Recorder.Formed.empty hAfter, rfl, rfl, rfl⟩

/-- **Recorded traces are in recorded form.** -/
theorem recorded (h : t.IsRecorded) : t.graph.Recorded := by
  obtain ⟨r, hFormed, hGraph, -, -⟩ := h.exists_formed
  rw [hGraph]
  exact hFormed.graph.recorded

/-- **A recorded trace without tags has no derivative inputs.** -/
theorem derivative_eq_false (h : t.IsRecorded) (hTags : t.tags = []) :
    ∀ a ∈ t.arguments, a.derivative = false := by
  obtain ⟨r, hFormed, -, hArguments, hEq⟩ := h.exists_formed
  rw [hArguments]
  exact hFormed.primal (hEq.symm.trans hTags)

end Trace.IsRecorded

end ArrayEquations
