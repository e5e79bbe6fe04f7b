import ArrayEquations.Proofs.InheritedProperties
import ArrayEquations.Proofs.ReversePass

/-!
# ArrayEquations — what a reverse differentiation hands down

A cotangent has the shape of its primal. The contributions of an elementwise operation stretch to
the shape of its result, those of a contraction have the shape of an operand with its axes in
another order, and all others have the shape of the operand or of the result. So a property that is
inherited along admitted shapes is handed down by a reverse differentiation if the shapes of the
graph are admitted, even if the differentiation ends at an operation without a rule.

## Main results

* `Reverse.handsDown_contributions` — what an operation gives its operands.
* `Reverse.handsDown_carryBack` — a step of the way back.
* `Reverse.handsDown_recordReverse` — a whole reverse differentiation, or a gradient.
-/

namespace ArrayEquations

namespace Reverse

open Recording Differentiating

variable {P : Graph → Prop} {Admits : Shape → Prop} {Strict : Prop} {x : Reverse} {r : Recorder}
  {a b o ct v : ValueId} {s out : Shape}

/-! ## Contributions of elementwise operations -/

section Contributions

variable (hP : Graph.Inherited P Admits Strict) (hs : Admits out)

include hP hs

theorem inherits_times (ha : r.graph.Within out a) (hb : r.graph.Within out b) :
    Inherits P (x.times a b) r fun v r' => r'.graph.Within out v := by
  have hBind : ∀ {v : ValueId} {f : Bool → Recording ValueId},
      (∀ unit, Inherits P (f unit) r fun v r' => r'.graph.Within out v) →
        Inherits P (x.isUnit v >>= f) r fun v r' => r'.graph.Within out v := fun h => h _
  unfold times
  apply hBind
  intro unit
  split
  · exact inherits_pure hb
  · apply hBind
    intro unit'
    split
    · exact inherits_pure ha
    · exact inherits_arith hP hs .mul ha hb

theorem inherits_callContribution (f : NamedFunction) (ha : r.graph.Within out a)
    (ho : r.graph.Within out o) (hCt : r.graph.Within out ct) :
    Inherits P (x.callContribution f a o ct) r fun v r' => r'.graph.Within out v := by
  cases f with
  | relu =>
    apply (inherits_positive hP hs ha).bind
    intro slope r₁ hExtends hSlope
    exact inherits_times hP hs hSlope (hCt.extend hExtends)
  | exp => exact inherits_times hP hs hCt ho
  | log => exact inherits_arith hP hs .div hCt ha
  | sin =>
    apply (inherits_call hP hs .cos ha).bind
    intro slope r₁ hExtends hSlope
    exact inherits_times hP hs (hCt.extend hExtends) hSlope
  | cos =>
    apply (inherits_call hP hs .sin ha).bind
    intro slope r₁ hExtends hSlope
    apply (inherits_times hP hs (hCt.extend hExtends) hSlope).bind
    intro product r₂ _ hProduct
    exact inherits_neg hP hs hProduct
  | tanh =>
    apply (inherits_arithRight hP hs .pow 2 ho).bind
    intro square r₁ hExtends₁ hSquare
    apply (inherits_arithLeft hP hs .sub 1 hSquare).bind
    intro slope r₂ hExtends₂ hSlope
    exact inherits_times hP hs (hCt.extend (hExtends₁.trans hExtends₂)) hSlope
  | sqrt =>
    apply (inherits_arithLeft hP hs .mul 2 ho).bind
    intro double r₁ hExtends hDouble
    exact inherits_arith hP hs .div (hCt.extend hExtends) hDouble

theorem inherits_lhsContribution (op : Arith) (ha : r.graph.Within out a)
    (hb : r.graph.Within out b) (hCt : r.graph.Within out ct) :
    Inherits P (x.lhsContribution op a b ct) r fun v r' => r'.graph.Within out v := by
  cases op with
  | add | sub => exact inherits_pure hCt
  | mul => exact inherits_times hP hs hCt hb
  | div => exact inherits_arith hP hs .div hCt hb
  | pow =>
    apply (inherits_powerSlope hP hs ha hb).bind
    intro slope r₁ hExtends hSlope
    exact inherits_times hP hs (hCt.extend hExtends) hSlope

theorem inherits_rhsContribution (op : Arith) (ha : r.graph.Within out a)
    (hb : r.graph.Within out b) (ho : r.graph.Within out o) (hCt : r.graph.Within out ct) :
    Inherits P (x.rhsContribution op a b o ct) r fun v r' => r'.graph.Within out v := by
  cases op with
  | add => exact inherits_pure hCt
  | sub => exact inherits_neg hP hs hCt
  | mul => exact inherits_times hP hs ha hCt
  | div =>
    apply (inherits_times hP hs hCt ha).bind
    intro product r₁ hExtends₁ hProduct
    apply (inherits_arithRight hP hs .pow 2 (hb.extend hExtends₁)).bind
    intro square r₂ hExtends₂ hSquare
    apply (inherits_arith hP hs .div (hProduct.extend hExtends₂) hSquare).bind
    intro quotient r₃ _ hQuotient
    exact inherits_neg hP hs hQuotient
  | pow =>
    apply (inherits_call hP hs .log ha).bind
    intro log r₁ hExtends₁ hLog
    apply (inherits_arith hP hs .mul (ho.extend hExtends₁) hLog).bind
    intro slope r₂ hExtends₂ hSlope
    exact inherits_times hP hs (hCt.extend (hExtends₁.trans hExtends₂)) hSlope

end Contributions

/-! ## Contributions of contractions -/

section Contractions

variable (hP : Graph.Inherited P Admits Strict)

include hP

theorem inherits_arrange (hv : r.graph.Admitted Admits v) (order : List Nat) :
    Inherits P (arrange v order) r fun w r' => r'.graph.Admitted Admits w := by
  unfold arrange
  split
  · exact inherits_pure hv
  · exact inherits_transpose hP hv _

/-- A contraction whose result has the axes of an admitted shape in some order. -/
private theorem inherits_contract {axes : ContractionAxes} {sa sb : Shape} {order : List Nat}
    (hs : Admits s) (hOrder : IsPermutation order ∧ order.length = s.rank)
    (hOut : axes.outShape sa sb = order.map s.extent) (ha : r.graph.HasShape a sa)
    (hb : r.graph.HasShape b sb) :
    Inherits P (contract axes a b) r fun v r' => r'.graph.Admitted Admits v := by
  apply inherits_push_admitted hP rfl
  intro s' hShape
  rw [List.map_cons, List.map_singleton, ha.2, hb.2] at hShape
  obtain ⟨-, rfl⟩ := ContractionAxes.resultShape_eq_ok.mp hShape
  rw [hOut]
  exact hP.admits_of_le hs (Shape.bulk_map_extent hOrder.1 hOrder.2).le

theorem inherits_contractLhs {axes : ContractionAxes} {ls rs : Shape} (hs : Admits ls)
    (h : axes.Pairable ls rs) (hCt : r.graph.HasShape ct (axes.outShape ls rs))
    (hb : r.graph.HasShape b rs) :
    Inherits P (contractLhs axes ls.rank rs.rank b ct) r fun v r' =>
      r'.graph.Admitted Admits v :=
  (inherits_contract hP hs (isPermutation_lhsOrder h) (outShape_lhsAxes h) hCt hb).bind
    fun _ _ _ hProduct => inherits_arrange hP hProduct _

theorem inherits_contractRhs {axes : ContractionAxes} {ls rs : Shape} (hs : Admits rs)
    (h : axes.Pairable ls rs) (ha : r.graph.HasShape a ls)
    (hCt : r.graph.HasShape ct (axes.outShape ls rs)) :
    Inherits P (contractRhs axes ls.rank rs.rank a ct) r fun v r' =>
      r'.graph.Admitted Admits v :=
  (inherits_contract hP hs (isPermutation_rhsOrder h) (outShape_rhsAxes h) ha hCt).bind
    fun _ _ _ hProduct => inherits_arrange hP hProduct _

/-! ## What an operation gives its operands -/

/-- What an operation gives one of its operands is brought to the shape of the operand. -/
theorem inherits_emit {operand : ValueId} {contribution : Recording ValueId}
    (hs : Admits (x.graph.shape operand))
    (h : Inherits P contribution r fun c r' => r'.graph.Admitted Admits c)
    (hShape : Ensures contribution r fun c r' => Reducible (x.graph.shape operand) r'.graph c) :
    Inherits P (x.emit operand contribution) r := by
  unfold emit
  split
  · apply (h.and hShape).bind
    rintro c r₁ - ⟨hc, hReducible⟩
    exact (inherits_unbroadcast hP hs hc fun _ => hReducible).bind fun _ _ _ _ =>
      inherits_pure trivial
  · exact inherits_pure trivial

end Contractions

section

variable {K : Type*} [Field K] {I : Interpretation K} {inputs : ValueId → Position → K}
  {entries : Position → K} {g : Graph}

/-- A contribution has the shape that the operand is stretched to, or is a number. -/
theorem Contributes.reducible (h : Contributes I inputs x g out v entries) (hBelow : s.Below out) :
    Reducible s g v := by
  rcases h.shape with hShape | ⟨-, hShape⟩
  · exact Or.inl (hShape ▸ hBelow)
  · exact Or.inr hShape

theorem reducible_of_fills (h : g.Fills I inputs s v entries) : Reducible s g v :=
  Or.inl (h.shape ▸ Shape.Below.refl _)

end

/-- Both operands are given something, the second one in the graph after the first. -/
private theorem handsDown_both {left right : Recording (List (ValueId × ValueId))}
    (hLeft : Inherits P left r) (hExtends : Ensures left r fun _ r₁ => r.Extends r₁)
    (hRight : ∀ r₁, r.Extends r₁ → Inherits P right r₁) :
    HandsDown P (do
      let l ← left
      let l' ← right
      return l ++ l' : Differentiating _) r := by
  apply (handsDown_lift (hLeft.and hExtends)).bind
  rintro l r₁ ⟨-, hExtends₁⟩
  exact (handsDown_lift (hRight r₁ hExtends₁)).bind fun _ _ _ => handsDown_pure trivial

section Rule

variable {operands : List ValueId} {op : Operation} {cts : Position → ℚ}

namespace Reached

theorem operand (h : Reached plainReading 0 x r v ct op operands s cts) {w : ValueId}
    (hw : w ∈ operands) : r.graph.HasShape w (x.graph.shape w) :=
  Graph.HasShape.extend ⟨h.lt hw, rfl⟩ h.underway.graph

theorem result (h : Reached plainReading 0 x r v ct op operands s cts) : r.graph.HasShape v s :=
  (Graph.hasShape_of_get? h.get?).extend h.underway.graph

theorem shaped (h : Reached plainReading 0 x r v ct op operands s cts) :
    r.graph.HasShape ct s :=
  ⟨h.cotangent.lt, h.cotangent.shape⟩

end Reached

variable (hP : Graph.Inherited P Admits Strict) (hShapes : ∀ v, Admits (x.graph.shape v))

include hP hShapes

/-- What elementwise arithmetic gives its operands. -/
theorem handsDown_contributions_arith {op : Arith}
    (h : Reached plainReading 0 x r v ct (.arith op) [a, b] s cts)
    (hBroadcast : (x.graph.shape a).broadcast (x.graph.shape b) = .ok s) :
    HandsDown P (x.contributions (.arith op) [a, b] v ct) r := by
  obtain ⟨ha, hb⟩ := Shape.below_of_broadcast hBroadcast
  have hs : Admits s := h.shape ▸ hShapes v
  have hSame := Shape.Below.refl s
  have hLeft := h.ensures_lhs (fun _ _ => rfl) ha hb
  apply handsDown_both
  · apply inherits_emit hP (hShapes a)
    · exact (inherits_lhsContribution hP hs op ((h.operand (by simp)).within ha)
        ((h.operand (by simp)).within hb) (h.shaped.within hSame)).imp
          fun _ _ hc => hc.admitted hP hs
    · exact hLeft.imp fun _ _ hc => hc.2.reducible ha
  · apply Ensures.imp (ensures_emit_elementwise ha (h.same_shape rfl (by simp)) hLeft)
    exact fun _ _ hc => hc.1
  · intro r₁ hExtends
    have h₁ := h.extend hExtends
    apply inherits_emit hP (hShapes b)
    · exact (inherits_rhsContribution hP hs op ((h₁.operand (by simp)).within ha)
        ((h₁.operand (by simp)).within hb) (h₁.result.within hSame)
        (h₁.shaped.within hSame)).imp fun _ _ hc => hc.admitted hP hs
    · exact (h₁.ensures_rhs (fun _ _ => rfl) ha hb).imp fun _ _ hc => hc.2.reducible hb

/-- Both summands of a sum are given the cotangent itself. -/
theorem handsDown_contributions_accumulate
    (h : Reached plainReading 0 x r v ct .accumulate [a, b] s cts)
    (hBroadcast : (x.graph.shape a).broadcast (x.graph.shape b) = .ok s) :
    HandsDown P (x.contributions .accumulate [a, b] v ct) r := by
  obtain ⟨ha, hb⟩ := Shape.below_of_broadcast hBroadcast
  have hs : Admits s := h.shape ▸ hShapes v
  have hPassed : ∀ {r₁ : Recorder} {w : ValueId}, r.Extends r₁ → (x.graph.shape w).Below s →
      Inherits P (x.emit w (pure ct)) r₁ := by
    intro r₁ w hExtends hBelow
    have hCt := (h.extend hExtends).shaped
    exact inherits_emit hP (hShapes w) (inherits_pure (hCt.admitted hs))
      (ensures_pure (Or.inl (hCt.2.symm ▸ hBelow)))
  apply handsDown_both (hPassed (Recorder.Extends.refl r) ha)
  · apply Ensures.imp
      (ensures_emit_elementwise ha (h.same_shape rfl (by simp)) h.ensures_passed)
    exact fun _ _ hc => hc.1
  · exact fun r₁ hExtends => hPassed hExtends hb

/-- A named function gives its argument the cotangent times the slope. -/
theorem handsDown_contributions_call {f : NamedFunction}
    (h : Reached plainReading 0 x r v ct (.call f) [a] (x.graph.shape a) cts) :
    HandsDown P (x.contributions (.call f) [a] v ct) r := by
  have hSame := Shape.Below.refl (x.graph.shape a)
  apply handsDown_lift
  apply inherits_emit hP (hShapes a)
  · exact (inherits_callContribution hP (hShapes a) f ((h.operand (by simp)).within hSame)
      (h.result.within hSame) (h.shaped.within hSame)).imp
        fun _ _ hc => hc.admitted hP (hShapes a)
  · exact (h.ensures_call fun _ _ => rfl).imp fun _ _ hc => hc.2.reducible hSame

/-- A contraction gives either operand a contraction of the cotangent with the other one. -/
theorem handsDown_contributions_contract {axes : ContractionAxes}
    (hPairable : axes.Pairable (x.graph.shape a) (x.graph.shape b))
    (h : Reached plainReading 0 x r v ct (.contract axes) [a, b]
      (axes.outShape (x.graph.shape a) (x.graph.shape b)) cts) :
    HandsDown P (x.contributions (.contract axes) [a, b] v ct) r := by
  have hLeft := ensures_contractLhs hPairable h.cotangent (h.fills (w := b) (by simp))
  apply handsDown_both
  · exact inherits_emit hP (hShapes a)
      (inherits_contractLhs hP (hShapes a) hPairable h.shaped (h.operand (by simp)))
      (hLeft.imp fun _ _ hc => reducible_of_fills hc.2)
  · apply Ensures.imp (ensures_emit_fills hLeft)
    exact fun _ _ hc => hc.1
  · intro r₁ hExtends
    have h₁ := h.extend hExtends
    exact inherits_emit hP (hShapes b)
      (inherits_contractRhs hP (hShapes b) hPairable (h₁.operand (by simp)) h₁.shaped)
      ((ensures_contractRhs hPairable (h₁.fills (w := a) (by simp)) h₁.cotangent).imp
        fun _ _ hc => reducible_of_fills hc.2)

/-- **What an operation gives its operands hands properties down**, and has their shapes. -/
theorem handsDown_contributions (h : Reached plainReading 0 x r v ct op operands s cts)
    (hReshape : Strict → ∀ a, x.graph.op? v = some (.reshape, [a]) →
      (x.graph.shape a).nonSingleton = (x.graph.shape v).nonSingleton) :
    HandsDown P (x.contributions op operands v ct) r fun given r' =>
      r.graph.Extends r'.graph ∧ ∀ y ∈ given, r'.graph.HasShape y.2 (x.graph.shape y.1) := by
  by_cases hForeign : ∃ name, op = .foreign name
  · obtain ⟨name, rfl⟩ := hForeign
    exact handsDown_throw (.noRule name)
  have hGiven := yields_contributions (fun _ _ => rfl) h fun name hEq => hForeign ⟨name, hEq⟩
  suffices hKeeps : HandsDown P (x.contributions op operands v ct) r by
    apply (hKeeps.and fun given r' hRun => hGiven.run_eq hRun).imp
    rintro given r' ⟨-, hExtends, hGives⟩
    exact ⟨hExtends.graph, hasShape_of_gives hGives⟩
  have hs : Admits s := h.shape ▸ hShapes v
  have hCt := h.cotangent
  have hFits := h.underway.source.fits h.get?
  generalize hOperands : operands.map x.graph.shape = shapes at hFits
  cases hFits with
  | arith hBroadcast =>
    obtain ⟨a, b, rfl, rfl, rfl⟩ := eq_pair_of_map hOperands
    exact handsDown_contributions_arith hP hShapes h hBroadcast
  | accumulate hBroadcast =>
    obtain ⟨a, b, rfl, rfl, rfl⟩ := eq_pair_of_map hOperands
    exact handsDown_contributions_accumulate hP hShapes h hBroadcast
  | neg =>
    obtain ⟨a, rfl, rfl⟩ := eq_singleton_of_map hOperands
    exact handsDown_lift (inherits_emit hP hs
      ((inherits_neg hP hs (h.shaped.within (Shape.Below.refl _))).imp
        fun _ _ hc => hc.admitted hP hs)
      ((ensures_neg_fills hCt).imp fun _ _ hc => reducible_of_fills hc.2))
  | call =>
    obtain ⟨a, rfl, rfl⟩ := eq_singleton_of_map hOperands
    exact handsDown_contributions_call hP hShapes h
  | indicator => exact handsDown_pure trivial
  | cast =>
    obtain ⟨a, rfl, rfl⟩ := eq_singleton_of_map hOperands
    exact handsDown_lift (inherits_emit hP hs (inherits_pure (h.shaped.admitted hs))
      (ensures_pure (reducible_of_fills hCt)))
  | reshape hSize =>
    obtain ⟨a, rfl, rfl⟩ := eq_singleton_of_map hOperands
    refine handsDown_lift (inherits_emit hP (hShapes a)
      (inherits_reshape hP (hShapes a) h.shaped.1 fun hStrict => ?_)
      ((ensures_reshape_fills hSize.symm hCt).imp fun _ _ hc => reducible_of_fills hc.2))
    -- The cotangent has the shape of the reshaped value, and gets back that of its operand.
    show _ = (x.graph.shape a).nonSingleton
    rw [h.shaped.2, hReshape hStrict a (Graph.op?_of_get? h.get?), h.shape]
  | @transpose permutation _ hLength hLt hNodup =>
    obtain ⟨a, rfl, rfl⟩ := eq_singleton_of_map hOperands
    have hPermutation : IsPermutation permutation := ⟨hLength ▸ hLt, hNodup⟩
    exact handsDown_lift (inherits_emit hP (hShapes a)
      (inherits_transpose hP (h.shaped.admitted hs) _)
      ((ensures_transpose_inverse hPermutation hLength hCt).imp
        fun _ _ hc => reducible_of_fills hc.2))
  | @broadcast dims _ _ hStretches =>
    obtain ⟨a, rfl, rfl⟩ := eq_singleton_of_map hOperands
    unfold contributions
    simp only
    rw [h.shape]
    exact handsDown_lift (inherits_emit hP (hShapes a)
      (inherits_broadcastContribution hP hStretches (hShapes a) hs h.shaped)
      ((ensures_broadcastContribution hStretches hCt).imp fun _ _ hc => reducible_of_fills hc.2))
  | reduceSum hAxes hNodup =>
    obtain ⟨a, rfl, rfl⟩ := eq_singleton_of_map hOperands
    exact handsDown_lift (inherits_emit hP (hShapes a)
      ((inherits_pushShaped hP rfl (hShapes a)).imp fun _ _ hc => hc.admitted (hShapes a))
      ((ensures_spreadOut hCt).imp fun _ _ hc => reducible_of_fills hc.2))
  | contract hPairable =>
    obtain ⟨a, b, rfl, rfl, rfl⟩ := eq_pair_of_map hOperands
    exact handsDown_contributions_contract hP hShapes hPairable h
  | foreign => exact absurd ⟨_, rfl⟩ hForeign

end Rule

/-! ## The way back -/

/-- All derivative quantities have the shapes of their primals. -/
def AllShaped (x : Reverse) (d : Derivatives) (g : Graph) : Prop :=
  ∀ v c, d v = some c → g.HasShape c (x.graph.shape v)

theorem AllShaped.extend {d : Derivatives} {g g' : Graph} (h : AllShaped x d g)
    (hExtends : g.Extends g') : AllShaped x d g' :=
  fun v c hd => (h v c hd).extend hExtends

theorem AllShaped.set {d : Derivatives} {g : Graph} (h : AllShaped x d g) {c : ValueId}
    (hc : g.HasShape c (x.graph.shape v)) : AllShaped x (d.set v c) g := by
  intro u c' hd
  unfold Derivatives.set at hd
  split at hd
  · rename_i hEq
    exact hEq ▸ Option.some.inj hd ▸ hc
  · exact h u c' hd

theorem Holds.allShaped {K : Type*} [Field K] {I : Interpretation K}
    {inputs : ValueId → Position → K} {c : Cotangents K} {d : Derivatives} {g : Graph}
    (h : Holds I inputs x c d g) : AllShaped x d g := by
  intro v w hd
  obtain ⟨e, -, hFills⟩ := h.of_some v w hd
  exact ⟨hFills.lt, hFills.shape⟩

/-- The seeds of the outputs have their shapes: they are inputs of these shapes, or the constant
of a gradient, whose output is a number. -/
theorem holds_seedOutputs (hx : Underway plainReading x r) {outputs : List ValueId}
    (hLt : ∀ o ∈ outputs, o < x.graph.size)
    (hScalar : x.unit.isSome = true → ∀ o ∈ outputs, x.graph.shape o = []) :
    Ensures (x.seedOutputs outputs) r fun d r' => ∃ added, r.Extends r' added ∧
      ∃ c, Holds plainReading 0 x c d r'.graph := by
  unfold seedOutputs
  apply Ensures.foldlM fun _ d r' => ∃ added, r.Extends r' added ∧
    ∃ c, Holds plainReading 0 x c d r'.graph
  · exact ⟨[], Recorder.Extends.refl r, _, holds_none plainReading 0 x r.graph⟩
  · rintro before o after d r₁ hSplit ⟨added, hExtends, c, hHolds⟩
    have ho : o ∈ outputs := by simp [hSplit]
    -- The seed is added to what the output has already.
    have hAdd : ∀ {seed : ValueId} {r₂ : Recorder} {more : List Argument} {e : Position → ℚ},
        r₁.Extends r₂ more → r₂.graph.Fills plainReading 0 (x.graph.shape o) seed e →
        Ensures (if x.depends.contains o then accumulate d o seed else return d) r₂ fun d' r' =>
          ∃ added, r.Extends r' added ∧ ∃ c, Holds plainReading 0 x c d' r'.graph := by
      intro seed r₂ more e hExtends₂ hFills
      have hAll := hExtends.trans hExtends₂
      split
      · apply Ensures.imp (ensures_accumulate (hHolds.extend hExtends₂.graph) hFills)
        rintro d' r₃ ⟨hExtends₃, hHolds₃⟩
        exact ⟨_, hAll.trans hExtends₃, _, hHolds₃⟩
      · exact ensures_pure ⟨_, hAll, c, hHolds.extend hExtends₂.graph⟩
    have hx₁ := hx.extend hExtends
    unfold seedOutput
    cases hUnit : x.unit with
    | some unit =>
      obtain ⟨hGet, hOne⟩ := hx₁.seed unit hUnit
      apply Ensures.bind (ensures_tag .cotangent o unit)
      rintro ⟨⟩ r₂ ⟨hExtends₂, -⟩
      have hGet₂ := hExtends₂.graph.get?_of_some hGet
      refine hAdd (e := fun _ => 1) hExtends₂ ?_
      rw [hScalar (by rw [hUnit]; rfl) o ho]
      exact ⟨Graph.lt_size_of_get? hGet₂, Graph.shape_of_get? hGet₂,
        fun p _ => (Graph.entry_of_literal hGet₂ p).trans hOne⟩
    | none =>
      apply Ensures.bind (ensures_derivativeInput .cotangent o)
      rintro seed r₂ ⟨hExtends₂, -, hGet⟩
      rw [hx₁.graph.shape_eq (hLt o ho)] at hGet
      exact hAdd hExtends₂
        ⟨Graph.lt_size_of_get? hGet, Graph.shape_of_get? hGet, fun _ _ => rfl⟩

section WayBack

variable {d : Derivatives} (hP : Graph.Inherited P Admits Strict)
  (hShapes : ∀ v, Admits (x.graph.shape v))

include hP hShapes

theorem inherits_accumulate (hd : AllShaped x d r.graph) {c : ValueId}
    (hc : r.graph.HasShape c (x.graph.shape v)) :
    Inherits P (accumulate d v c) r fun d' r' => AllShaped x d' r'.graph := by
  unfold accumulate
  cases hBefore : d v with
  | none => exact inherits_pure (hd.set hc)
  | some before =>
    have hSame := Shape.Below.refl (x.graph.shape v)
    have hb := hd v before hBefore
    apply (inherits_elementwise hP (hShapes v) rfl (hb.within hSame) (hc.within hSame)).bind
    rintro sum r₁ hExtends ⟨hSum, hCommon⟩
    rw [hb.2, hc.2, Shape.broadcast_of_below_left hSame] at hCommon
    exact inherits_pure ((hd.extend hExtends).set ⟨hSum.1, (Except.ok.inj hCommon).symm⟩)

theorem inherits_accumulateAll (hd : AllShaped x d r.graph) {given : List (ValueId × ValueId)}
    (hGiven : ∀ y ∈ given, r.graph.HasShape y.2 (x.graph.shape y.1)) :
    Inherits P (accumulateAll d given) r fun d' r' => AllShaped x d' r'.graph := by
  apply inherits_foldlM (fun d' r' => AllShaped x d' r'.graph) hd
  rintro ⟨target, c⟩ hy d' r' hExtends hd'
  exact inherits_accumulate hP hShapes hd' ((hGiven _ hy).extend hExtends)

/-- **A step of the way back hands properties down**, and the cotangents keep the shapes of their
primals. -/
theorem handsDown_carryBack
    (hReshapes : Strict → ∀ v a, x.graph.op? v = some (.reshape, [a]) →
      (x.graph.shape a).nonSingleton = (x.graph.shape v).nonSingleton)
    (bound : List ValueId) {r₀ : Recorder}
    (h : ∃ c, Carries plainReading 0 x r₀ c d r) (v : ValueId) :
    HandsDown P (x.carryBack bound d v) r fun d' r' =>
      ∃ c, Carries plainReading 0 x r₀ c d' r' := by
  obtain ⟨c, h⟩ := h
  have hd := h.holds.allShaped
  suffices hKeeps : HandsDown P (x.carryBack bound d v) r by
    apply (hKeeps.and fun d' r' hRun =>
      (follows_carryBack (fun _ _ => rfl) bound h).ok_of_run hRun).imp
    rintro d' r' ⟨-, c', -, hCarries⟩
    exact ⟨c', hCarries⟩
  unfold carryBack
  cases hCt : d v with
  | none => exact handsDown_pure trivial
  | some ct =>
    cases hOp : x.graph.op? v with
    | none => exact handsDown_pure trivial
    | some made =>
      obtain ⟨op, operands⟩ := made
      -- Whether the value gets a tag or not, the contributions come next.
      have hRest : ∀ {r₁ : Recorder}, r.Extends r₁ → HandsDown P (do
          accumulateAll d (← x.contributions op operands v ct)) r₁ := by
        intro r₁ hExtends
        have hGiven := handsDown_contributions hP hShapes ⟨h.underway.extend hExtends,
          Graph.op?_eq_some hOp, ((hd v ct hCt).extend hExtends.graph).fills⟩
            fun hStrict => hReshapes hStrict v
        apply hGiven.bind
        rintro given r₂ ⟨hExtends₂, hGiven⟩
        exact handsDown_lift (inherits_accumulateAll hP hShapes
          (hd.extend (hExtends.graph.trans hExtends₂)) hGiven).only
      simp only
      split
      · apply (handsDown_lift ((inherits_tag .cotangent v ct).and
          (ensures_tag .cotangent v ct))).bind
        rintro ⟨⟩ r₁ ⟨-, hExtends, -⟩
        exact hRest hExtends
      · exact hRest (Recorder.Extends.refl r)

/-! ## Seeds -/

/-- The seeds of the outputs are inputs of their shapes, or the constant of a gradient, whose
output is a number. -/
theorem inherits_seedOutputs (hx : Underway plainReading x r) {outputs : List ValueId}
    (hLt : ∀ o ∈ outputs, o < x.graph.size)
    (hScalar : x.unit.isSome = true → ∀ o ∈ outputs, x.graph.shape o = []) :
    Inherits P (x.seedOutputs outputs) r fun d r' => AllShaped x d r'.graph := by
  apply inherits_foldlM fun d' r' => AllShaped x d' r'.graph
  · exact fun _ _ hd => absurd hd (by simp [Derivatives.none])
  · intro o ho d r₁ hExtends hd
    -- The seed is added to what the output has already.
    have hAdd : ∀ {seed : ValueId} {r₂ : Recorder}, r₁.graph.Extends r₂.graph →
        r₂.graph.HasShape seed (x.graph.shape o) →
        Inherits P (if x.depends.contains o then accumulate d o seed else return d) r₂
          fun d' r' => AllShaped x d' r'.graph := by
      intro seed r₂ hExtends₂ hSeed
      split
      · exact inherits_accumulate hP hShapes (hd.extend hExtends₂) hSeed
      · exact inherits_pure (hd.extend hExtends₂)
    unfold seedOutput
    cases hUnit : x.unit with
    | some unit =>
      have hNumber := Graph.hasShape_of_get? (hx.seed unit hUnit).1
      apply (inherits_tag .cotangent o unit).bind
      intro _ r₂ hExtends₂ _
      apply hAdd hExtends₂
      rw [hScalar (by rw [hUnit]; rfl) o ho]
      exact hNumber.extend (hExtends.trans hExtends₂)
    | none =>
      have hShape : r₁.graph.shape o = x.graph.shape o :=
        (hx.graph.trans hExtends).shape_eq (hLt o ho)
      apply ((inherits_derivativeInput hP .cotangent (hShape ▸ hShapes o)).and
        (ensures_derivativeInput .cotangent o)).bind
      rintro seed r₂ hExtends₂ ⟨-, -, -, hGet⟩
      rw [hShape] at hGet
      exact hAdd hExtends₂ (Graph.hasShape_of_get? hGet)

/-- What is recorded once there is a unit or none. -/
private theorem handsDown_wayBack (hx : Underway plainReading x r)
    (hReshapes : Strict → ∀ v a, x.graph.op? v = some (.reshape, [a]) →
      (x.graph.shape a).nonSingleton = (x.graph.shape v).nonSingleton)
    (bound wrt : List ValueId) {outputs : List ValueId} (hLt : ∀ o ∈ outputs, o < x.graph.size)
    (hScalar : x.unit.isSome = true → ∀ o ∈ outputs, x.graph.shape o = []) :
    HandsDown P (do
      let seeds ← x.seedOutputs outputs
      let cotangents ← x.graph.ids.reverse.foldlM (x.carryBack bound) seeds
      argumentCotangents cotangents wrt : Differentiating _) r := by
  -- The invariant of the loop is that the cotangents are underway, from where the seeds are.
  have hSeeds : Inherits P (x.seedOutputs outputs) r fun d r₁ =>
      ∃ c, Carries plainReading 0 x r₁ c d r₁ := by
    apply ((inherits_seedOutputs hP hShapes hx hLt hScalar).and
      (holds_seedOutputs hx hLt hScalar)).imp
    rintro d r₁ ⟨-, added, hExtends, c, hHolds⟩
    exact ⟨c, Recorder.Extends.refl r₁, hx.extend hExtends, hHolds⟩
  apply (handsDown_lift hSeeds).bind
  intro d r₁ hCarries
  apply (handsDown_foldlM (fun d' r' => ∃ c, Carries plainReading 0 x r₁ c d' r') hCarries
    fun d v r h => handsDown_carryBack hP hShapes hReshapes bound h v).bind
  intro d' r₂ _
  exact handsDown_lift (inherits_mapM (fun a r =>
    inherits_knownOrZero hP .cotangent a (d' a)) wrt r₂)

end WayBack

/-- **A reverse differentiation hands properties down**, and so does a gradient of a number. -/
theorem handsDown_recordReverse (hP : Graph.Inherited P Admits Strict) {g : Graph}
    (hShapes : ∀ v, Admits (g.shape v)) (hg : g.WellFormed) (hGraph : r.graph = g)
    (hReshapes : Strict → ∀ v a, g.op? v = some (.reshape, [a]) →
      (g.shape a).nonSingleton = (g.shape v).nonSingleton)
    (bound : List ValueId) {wrt : List ValueId}
    (hLeaf : ∀ a ∈ wrt, g.get? a = some ⟨.leaf, g.shape a⟩) {outputs : List ValueId}
    (hLt : ∀ o ∈ outputs, o < g.size) {gradient : Bool}
    (hGradient : gradient = true → g.Recorded ∧ ∀ o ∈ outputs, g.shape o = []) :
    HandsDown P (recordReverse g bound wrt outputs gradient) r := by
  subst hGraph
  unfold recordReverse
  cases gradient with
  | false =>
    have hUnit : HandsDown P (pure none : Differentiating (Option ValueId)) r fun u r' =>
        u = none ∧ r' = r := handsDown_pure ⟨rfl, rfl⟩
    rw [if_neg Bool.false_ne_true]
    apply hUnit.bind
    rintro unit r₁ ⟨rfl, rfl⟩
    exact handsDown_wayBack (x := ⟨r₁.graph, none, dependents r₁.graph wrt⟩) hP hShapes
      ⟨Graph.Extends.refl _, hg, hg, fun h => absurd h (by simp),
        not_literal_of_depends hLeaf, fun u hu => absurd hu (by simp)⟩
      hReshapes bound wrt hLt fun h => absurd h (by simp)
  | true =>
    obtain ⟨hRecorded, hScalar⟩ := hGradient rfl
    rw [if_pos rfl]
    obtain ⟨hExtends, -, hGet⟩ := @ensures_literal r 1
    have hUnit : HandsDown P (some <$> liftM (literal 1) : Differentiating (Option ValueId)) r
        fun u r₁ => u = some r.graph.size ∧ r.Extends r₁ ∧
          r₁.graph.get? r.graph.size = some ⟨.literal 1, []⟩ := by
      refine fun hr => ⟨hP.push_literal hr, ?_⟩
      rintro u r₁ hRun
      obtain ⟨hu, rfl⟩ := Prod.mk.inj hRun
      exact ⟨(Except.ok.inj hu).symm, hExtends, hGet⟩
    apply hUnit.bind
    rintro unit r₁ ⟨rfl, hExtends₁, hGet₁⟩
    exact handsDown_wayBack (x := ⟨r.graph, some r.graph.size, dependents r.graph wrt⟩) hP hShapes
      ⟨hExtends₁.graph, hg, hExtends₁.wellFormed hg, fun _ => hRecorded,
        not_literal_of_depends hLeaf, fun u hu => Option.some.inj hu ▸ ⟨hGet₁, rfl⟩⟩
      hReshapes bound wrt hLt fun _ => hScalar

end Reverse

end ArrayEquations
