import ArrayEquations.Derivative.Forward
import ArrayEquations.Proofs.RecordedSlope
import ArrayEquations.Proofs.Tangent

/-!
# ArrayEquations — the recorded tangent of an operation

A value without a recorded tangent has the tangent zero. The rules of an operation are
proved for every combination of operands with and without a tangent at once, through the
combinators that skip what is not there.

## Main definitions

* `Graph.Represents` — an optional value stands for an array; none stands for zero.

## Main results

* `yields_tangentOf` — what is recorded for an operation represents its tangent.
-/

namespace ArrayEquations

variable {K : Type*} [Field K]

/-- The optional value stands for the entries given on a shape; without a value they are zero. -/
def Graph.Represents (I : Interpretation K) (inputs : ValueId → Position → K) (g : Graph)
    (s : Shape) (value : Option ValueId) (entries : Position → K) : Prop :=
  match value with
  | some v => g.Fills I inputs s v entries
  | none => ∀ p ∈ s.box, entries p = 0

namespace Graph.Represents

variable {I : Interpretation K} {inputs : ValueId → Position → K} {g g' : Graph} {s : Shape}
  {value : Option ValueId} {entries entries' : Position → K}

theorem extend (h : g.Represents I inputs s value entries) (hExtends : g.Extends g') :
    g'.Represents I inputs s value entries := by
  cases value with
  | none => exact h
  | some v => exact Fills.extend h hExtends

theorem congr (h : g.Represents I inputs s value entries)
    (hEq : ∀ p ∈ s.box, entries p = entries' p) : g.Represents I inputs s value entries' := by
  cases value with
  | none => exact fun p hp => (hEq p hp).symm.trans (h p hp)
  | some v => exact Fills.congr h hEq

end Graph.Represents

namespace Forward

open Recording

variable {I : Interpretation K} {inputs : ValueId → Position → K} {r : Recorder} {s : Shape}
  {ta tb : Option ValueId} {entries₁ entries₂ : Position → K}

/-! ## Optional tangents -/

/-- What an action does to a tangent that is there, it does to zero where none is. -/
theorem ensures_through {s' : Shape} {f : ValueId → Recording ValueId}
    {entries : Position → K} (h : r.graph.Represents I inputs s ta entries₁)
    (hZero : (∀ q ∈ s.box, entries₁ q = 0) → ∀ p ∈ s'.box, entries p = 0)
    (hSome : ∀ t, r.graph.Fills I inputs s t entries₁ → Ensures (f t) r fun v r' =>
      r.Extends r' ∧ r'.graph.Fills I inputs s' v entries) :
    Ensures (through ta f) r fun t r' =>
      r.Extends r' ∧ r'.graph.Represents I inputs s' t entries := by
  cases ta with
  | none => exact ⟨Recorder.Extends.refl r, hZero h⟩
  | some t => exact ensures_map (hSome t h)

/-- A sum of two tangents, either of which may be missing. -/
private theorem ensures_join {op : Operation} (hOp : Combines I op (· + ·))
    {join : Option ValueId → Option ValueId → Recording (Option ValueId)}
    (hLeft : ∀ t, join t none = pure t) (hRight : ∀ t, join none t = pure t)
    (hBoth : ∀ a b, join (some a) (some b) = some <$> elementwise op a b)
    (ha : r.graph.Represents I inputs s ta entries₁)
    (hb : r.graph.Represents I inputs s tb entries₂) :
    Ensures (join ta tb) r fun t r' => r.Extends r' ∧
      r'.graph.Represents I inputs s t fun p => entries₁ p + entries₂ p := by
  -- Without a tangent the entries are zero, so that the other side alone is the sum.
  cases tb with
  | none =>
    rw [hLeft]
    refine ⟨Recorder.Extends.refl r, ha.congr ?_⟩
    intro p hp
    rw [hb p hp, add_zero]
  | some b =>
    cases ta with
    | none =>
      rw [hRight]
      refine ⟨Recorder.Extends.refl r, Graph.Represents.congr hb ?_⟩
      intro p hp
      rw [ha p hp, zero_add]
    | some a =>
      rw [hBoth]
      exact ensures_map (ensures_elementwise_left hOp ha (Graph.Fills.spreads hb))

theorem ensures_add (ha : r.graph.Represents I inputs s ta entries₁)
    (hb : r.graph.Represents I inputs s tb entries₂) :
    Ensures (Forward.add ta tb) r fun t r' => r.Extends r' ∧
      r'.graph.Represents I inputs s t fun p => entries₁ p + entries₂ p :=
  ensures_join (combines_arith I .add) (by rintro (_ | _) <;> rfl) (by rintro (_ | _) <;> rfl)
    (fun _ _ => rfl) ha hb

theorem ensures_accumulate (ha : r.graph.Represents I inputs s ta entries₁)
    (hb : r.graph.Represents I inputs s tb entries₂) :
    Ensures (Forward.accumulate ta tb) r fun t r' => r.Extends r' ∧
      r'.graph.Represents I inputs s t fun p => entries₁ p + entries₂ p :=
  ensures_join (combines_accumulate I) (by rintro (_ | _) <;> rfl) (by rintro (_ | _) <;> rfl)
    (fun _ _ => rfl) ha hb

theorem ensures_sub (ha : r.graph.Represents I inputs s ta entries₁)
    (hb : r.graph.Represents I inputs s tb entries₂) :
    Ensures (Forward.sub ta tb) r fun t r' => r.Extends r' ∧
      r'.graph.Represents I inputs s t fun p => entries₁ p - entries₂ p := by
  cases tb with
  | none =>
    -- Nothing is subtracted, whether there is a tangent on the left or not.
    have hDifference : Forward.sub ta none = pure ta := by cases ta <;> rfl
    rw [hDifference]
    refine ⟨Recorder.Extends.refl r, ha.congr ?_⟩
    intro p hp
    rw [hb p hp, sub_zero]
  | some b =>
    cases ta with
    | none =>
      apply ensures_map
      apply (ensures_neg_fills hb).imp_extends
      intro v r' _ hFills
      apply Graph.Fills.congr hFills
      intro p hp
      rw [ha p hp, zero_sub]
    | some a => exact ensures_map (ensures_elementwise_left (combines_arith I .sub) ha
        (Graph.Fills.spreads hb))

/-! ## Tangents of the operations -/

/-- The recorded tangent of a named function is its slope times the operand's tangent. -/
theorem ensures_callTangent (hDiv : ∀ x y, I.div x y = x / y) (f : NamedFunction)
    {a out t : ValueId} {tangents : Position → K} (ha : r.graph.Fills I inputs s a entries₁)
    (hOut : r.graph.Fills I inputs s out fun p => I.call f (entries₁ p))
    (ht : r.graph.Fills I inputs s t tangents) :
    Ensures (callTangent f a out t) r fun v r' => r.Extends r' ∧
      r'.graph.Fills I inputs s v fun p => I.callSlope f (entries₁ p) * tangents p := by
  cases f with
  | relu =>
    apply (ensures_positive ha.spreads).bind_extends
    rintro slope r₁ hExtends ⟨hSlope, -⟩
    exact ensures_elementwise_right (combines_arith I .mul) hSlope (ht.extend hExtends.graph)
  | exp => exact ensures_elementwise_right (combines_arith I .mul) hOut.spreads ht
  | log =>
    apply (ensures_elementwise_left (combines_arith I .div) ht ha.spreads).imp_extends
    intro v r' _ hFills
    -- A quotient by the argument is the product with one over it.
    apply hFills.congr
    intro p _
    show I.div _ _ = 1 / _ * _
    rw [hDiv]
    ring
  | sin =>
    apply (ensures_call .cos ha.spreads).bind_extends
    rintro slope r₁ hExtends ⟨hSlope, -⟩
    exact ensures_elementwise_right (combines_arith I .mul) hSlope (ht.extend hExtends.graph)
  | cos =>
    apply (ensures_call .sin ha.spreads).bind_extends
    rintro slope r₁ hExtends ⟨hSlope, -⟩
    apply (ensures_elementwise_right (combines_arith I .mul) hSlope
      (ht.extend hExtends.graph)).bind_extends
    intro product r₂ _ hProduct
    apply (ensures_neg_fills hProduct).imp_extends
    intro v r₃ _ hFills
    apply hFills.congr
    intro p _
    show -(_ * _) = -_ * _
    ring
  | tanh =>
    apply (ensures_arithRight .pow 2 hOut.spreads).bind_extends
    rintro square r₁ hExtends₁ ⟨hSquare, -⟩
    apply (ensures_arithLeft .sub 1 hSquare).bind_extends
    rintro slope r₂ hExtends₂ ⟨hSlope, -⟩
    exact ensures_elementwise_right (combines_arith I .mul) hSlope
      (ht.extend (hExtends₁.trans hExtends₂).graph)
  | sqrt =>
    apply (ensures_arithLeft .mul 2 hOut.spreads).bind_extends
    rintro double r₁ hExtends ⟨hDouble, -⟩
    apply (ensures_elementwise_left (combines_arith I .div)
      (ht.extend hExtends.graph) hDouble).imp_extends
    intro v r₂ _ hFills
    apply hFills.congr
    intro p _
    show I.div _ (_ * _) = 1 / (_ * _) * _
    rw [hDiv]
    ring

/-- Both operands contribute to the tangent, and the contributions are joined. -/
theorem ensures_both {s₁ s₂ : Shape} {fl fr : ValueId → Recording ValueId}
    {join : Option ValueId → Option ValueId → Recording (Option ValueId)}
    {tangents₁ tangents₂ part₁ part₂ tangents : Position → K}
    (hta : r.graph.Represents I inputs s₁ ta tangents₁)
    (htb : r.graph.Represents I inputs s₂ tb tangents₂)
    (hZero₁ : (∀ q ∈ s₁.box, tangents₁ q = 0) → ∀ p ∈ s.box, part₁ p = 0)
    (hZero₂ : (∀ q ∈ s₂.box, tangents₂ q = 0) → ∀ p ∈ s.box, part₂ p = 0)
    (hl : ∀ t, r.graph.Fills I inputs s₁ t tangents₁ → Ensures (fl t) r fun v r' =>
      r.Extends r' ∧ r'.graph.Fills I inputs s v part₁)
    (hr : ∀ r₁, r.Extends r₁ → ∀ t, r₁.graph.Fills I inputs s₂ t tangents₂ →
      Ensures (fr t) r₁ fun v r' => r₁.Extends r' ∧ r'.graph.Fills I inputs s v part₂)
    (hJoin : ∀ r₂ l rt, r₂.graph.Represents I inputs s l part₁ →
      r₂.graph.Represents I inputs s rt part₂ → Ensures (join l rt) r₂ fun t r' =>
        r₂.Extends r' ∧ r'.graph.Represents I inputs s t tangents) :
    Ensures (do
      let l ← through ta fl
      let rt ← through tb fr
      join l rt) r fun t r' => r.Extends r' ∧ r'.graph.Represents I inputs s t tangents := by
  apply (ensures_through hta hZero₁ hl).bind_extends
  intro l r₁ hExtends₁ hLeft
  -- The right part is recorded after the left one, and what was known before is still known.
  apply (ensures_through (htb.extend hExtends₁.graph) hZero₂ (hr r₁ hExtends₁)).bind_extends
  intro rt r₂ hExtends₂ hRight
  exact hJoin r₂ l rt (hLeft.extend hExtends₂.graph) hRight

private theorem zero_of_factor {tangents : Position → K} (slopes : Position → K)
    (h : ∀ q ∈ s.box, tangents q = 0) : ∀ p ∈ s.box, slopes p * tangents p = 0 := by
  intro p hp
  rw [h p hp, mul_zero]

/-- The recorded tangent of arithmetic adds up slope times tangent over both operands. -/
theorem ensures_arithTangent (hDiv : ∀ x y, I.div x y = x / y) (op : Arith) {a b out : ValueId}
    {tangents₁ tangents₂ : Position → K} (ha : r.graph.Spreads I inputs s a entries₁)
    (hb : r.graph.Spreads I inputs s b entries₂)
    (hOut : r.graph.Fills I inputs s out fun p => I.arith op (entries₁ p) (entries₂ p))
    (hta : r.graph.Represents I inputs s ta tangents₁)
    (htb : r.graph.Represents I inputs s tb tangents₂) :
    Ensures (arithTangent op a b out ta tb) r fun t r' => r.Extends r' ∧
      r'.graph.Represents I inputs s t fun p =>
        I.lhsSlope (r.graph.literal? b) op (entries₁ p) (entries₂ p) * tangents₁ p +
          I.rhsSlope op (entries₁ p) (entries₂ p) * tangents₂ p := by
  cases op with
  | add =>
    apply (ensures_add hta htb).imp_extends
    intro t r' _ hTangent
    apply hTangent.congr
    intro p _
    show _ = 1 * _ + 1 * _
    ring
  | sub =>
    apply (ensures_sub hta htb).imp_extends
    intro t r' _ hTangent
    apply hTangent.congr
    intro p _
    show _ = 1 * _ + -1 * _
    ring
  | mul =>
    refine ensures_both hta htb (zero_of_factor _) (zero_of_factor _) ?_ ?_
      (fun _ _ _ => ensures_add)
    · intro t ht
      apply (ensures_elementwise_left (combines_arith I .mul) ht hb).imp_extends
      exact fun v r' _ hFills => hFills.congr fun p _ => mul_comm _ _
    · intro r₁ hExtends₁ t ht
      exact ensures_elementwise_right (combines_arith I .mul) (ha.extend hExtends₁.graph) ht
  | div =>
    -- The quotient rule is recorded as a difference of two quotients.
    refine @ensures_both K _ I inputs r s ta tb s s _ _ _ tangents₁ tangents₂
      (fun p => 1 / entries₂ p * tangents₁ p)
      (fun p => entries₁ p / I.pow (entries₂ p) (I.literal 2) * tangents₂ p) _
      hta htb (zero_of_factor _) (zero_of_factor _) ?_ ?_ ?_
    · intro t ht
      apply (ensures_elementwise_left (combines_arith I .div) ht hb).imp_extends
      intro v r' _ hFills
      apply hFills.congr
      intro p _
      show I.div _ _ = _
      rw [hDiv]
      ring
    · intro r₁ hExtends₁ t ht
      apply (ensures_elementwise_right (combines_arith I .mul)
        (ha.extend hExtends₁.graph) ht).bind_extends
      intro product r₂ hExtends₂ hProduct
      have hExtends := hExtends₁.trans hExtends₂
      apply (ensures_arithRight .pow 2 (hb.extend hExtends.graph)).bind_extends
      rintro square r₃ hExtends₃ ⟨hSquare, -⟩
      apply (ensures_elementwise_left (combines_arith I .div)
        (hProduct.extend hExtends₃.graph) hSquare).imp_extends
      intro v r₄ _ hFills
      apply hFills.congr
      intro p _
      show I.div (_ * _) (I.pow _ _) = _
      rw [hDiv]
      ring
    · intro r₂ l rt hl hrt
      apply (ensures_sub hl hrt).imp_extends
      intro t r' _ hTangent
      apply hTangent.congr
      intro p _
      show _ = 1 / _ * _ + -(_ / _) * _
      ring
  | pow =>
    refine ensures_both hta htb (zero_of_factor _) (zero_of_factor _) ?_ ?_
      (fun _ _ _ => ensures_add)
    · intro t ht
      apply (ensures_powerSlope ha hb).bind_extends
      rintro slope r₁ hExtends ⟨hSlope, -⟩
      exact ensures_elementwise_right (combines_arith I .mul) hSlope (ht.extend hExtends.graph)
    · intro r₁ hExtends₁ t ht
      apply (ensures_call .log (ha.extend hExtends₁.graph)).bind_extends
      rintro log r₂ hExtends₂ ⟨hLog, -⟩
      have hExtends := hExtends₁.trans hExtends₂
      apply (ensures_elementwise_left (combines_arith I .mul)
        (hOut.extend hExtends.graph) hLog).bind_extends
      intro slope r₃ hExtends₃ hSlope
      exact ensures_elementwise_right (combines_arith I .mul) hSlope.spreads
        (ht.extend (hExtends₂.trans hExtends₃).graph)

/-- The recorded tangent of a contraction contracts either operand with the other's tangent. -/
theorem ensures_contractTangent {axes : ContractionAxes} {ls rs : Shape} {a b : ValueId}
    {tangents₁ tangents₂ : Position → K} (hPairable : axes.Pairable ls rs)
    (ha : r.graph.Fills I inputs ls a entries₁) (hb : r.graph.Fills I inputs rs b entries₂)
    (hta : r.graph.Represents I inputs ls ta tangents₁)
    (htb : r.graph.Represents I inputs rs tb tangents₂) :
    Ensures (do
      let l ← through ta fun t => contract axes t b
      let rt ← through tb fun t => contract axes a t
      Forward.add l rt) r fun t r' => r.Extends r' ∧
        r'.graph.Represents I inputs (axes.outShape ls rs) t fun p =>
          ∑ x ∈ axes.pairs ls rs p, tangents₁ x.1 * entries₂ x.2 +
            ∑ x ∈ axes.pairs ls rs p, entries₁ x.1 * tangents₂ x.2 := by
  refine ensures_both hta htb ?_ ?_ (fun t ht => ensures_contract hPairable ht hb) ?_
    (fun _ _ _ => ensures_add)
  · -- A sum of products in which one factor is zero throughout.
    intro hZero p _
    apply Finset.sum_eq_zero
    intro x hx
    rw [hZero _ (ContractionAxes.mem_pairs.mp hx).1.1, zero_mul]
  · intro hZero p _
    apply Finset.sum_eq_zero
    intro x hx
    rw [hZero _ (ContractionAxes.mem_pairs.mp hx).1.2, mul_zero]
  · intro r₁ hExtends t ht
    exact ensures_contract hPairable (ha.extend hExtends.graph) ht

end Forward

section Rule

open Recording Differentiating

variable {I : Interpretation K} {inputs tangents : ValueId → Position → K} {g : Graph}
  {r : Recorder} {d : Derivatives}

/-- What is known of the recorded tangents when an operation is reached. -/
structure Forward.Ready (I : Interpretation K) (inputs tangents : ValueId → Position → K)
    (g : Graph) (r : Recorder) (d : Derivatives) (operands : List ValueId) : Prop where
  graph : g.Extends r.graph
  lt : ∀ w ∈ operands, w < g.size
  represents : ∀ w ∈ operands,
    r.graph.Represents I inputs (g.shape w) (d w) (g.recordedTangent I inputs tangents w)
  not_literal : ∀ w t, d w = some t → g.literal? w = none

namespace Forward.Ready

variable {operands : List ValueId} {s : Shape}

theorem spreads (h : Ready I inputs tangents g r d operands) {w : ValueId} (hw : w ∈ operands)
    (hBelow : (g.shape w).Below s) :
    r.graph.Spreads I inputs s w (g.tensor I inputs w).aligned :=
  (Graph.spreads_self I inputs (h.lt w hw) hBelow).extend h.graph

theorem fills (h : Ready I inputs tangents g r d operands) {w : ValueId} (hw : w ∈ operands) :
    r.graph.Fills I inputs (g.shape w) w (g.entry I inputs w) :=
  (Graph.fills_self I inputs (h.lt w hw)).extend h.graph

/-- A tangent that is there is not smaller than the result, for only constants are. -/
theorem aligned (h : Ready I inputs tangents g r d operands) {w : ValueId} (hw : w ∈ operands)
    (hBelow : (g.shape w).Below s) (hShape : g.literal? w = none → g.shape w = s) :
    r.graph.Represents I inputs s (d w) fun p =>
      g.recordedTangent I inputs tangents w ((g.shape w).align p) := by
  have hRepresents := h.represents w hw
  cases hd : d w with
  | none =>
    intro p hp
    rw [hd] at hRepresents
    exact hRepresents _ (Shape.align_mem_box hBelow hp)
  | some t =>
    have hEq := hShape (h.not_literal w t hd)
    rw [hd, hEq] at hRepresents
    apply hRepresents.congr
    intro p hp
    rw [hEq, Shape.align_self hp]

/-- The result of the operation holds what it holds in the graph that is differentiated. -/
theorem fills_result {v : ValueId} {op : Operation} (h : Ready I inputs tangents g r d operands)
    (hg : g.WellFormed) (hGet : g.get? v = some ⟨.op op operands, s⟩) :
    r.graph.Fills I inputs s v (op.entry I (operands.map (g.tensor I inputs)) s) := by
  have hFills := (Graph.fills_self I inputs (Graph.lt_size_of_get? hGet)).extend h.graph
  rw [Graph.shape_of_get? hGet] at hFills
  exact hFills.congr fun p _ => Graph.entry_of_op hGet (hg.before hGet) p

/-- If no operand has a tangent, then all their tangents are zero, and so is that of the result. -/
theorem represents_none {v : ValueId} {op : Operation}
    (h : Ready I inputs tangents g r d operands) (hg : g.WellFormed)
    (hGet : g.get? v = some ⟨.op op operands, s⟩) (hNone : ∀ w ∈ operands, d w = none) :
    r.graph.Represents I inputs s none (g.recordedTangent I inputs tangents v) := by
  intro p hp
  apply Graph.recordedTangent_eq_zero hg hGet _ hp
  intro w hw q hq
  have hRepresents := h.represents w hw
  rw [hNone w hw] at hRepresents
  exact hRepresents q hq

end Forward.Ready

/-- An operation that is linear in its one operand does to the tangent what it does to the
operand. -/
theorem Forward.ensures_linear {v a : ValueId} {op : Operation} {s : Shape}
    {f : ValueId → Recording ValueId}
    (hFits : op.Fits [g.shape a] s) (hSlots : op.slots = [0])
    (hg : g.WellFormed) (hGet : g.get? v = some ⟨.op op [a], s⟩)
    (hReady : Ready I inputs tangents g r d [a])
    (hLinear : ∀ (t : Tensor K) (p : Position), t.shape = g.shape a →
      op.entry I [t] s p = op.differential I (g.literal? 0) [g.tensor I inputs a] 0 t.entry s p)
    (hRecord : ∀ t < r.graph.size, r.graph.shape t = g.shape a → Ensures (f t) r fun w r' =>
      r.Extends r' ∧ w = r.graph.size ∧ r'.graph.get? w = some ⟨.op op [t], s⟩) :
    Ensures (through (d a) f) r fun t r' => r.Extends r' ∧
      r'.graph.Represents I inputs s t (g.recordedTangent I inputs tangents v) := by
  -- There is only one slot to sum over.
  have hTangent : ∀ p, g.recordedTangent I inputs tangents v p = op.differential I (g.literal? 0)
      [g.tensor I inputs a] 0 (g.recordedTangent I inputs tangents a) s p := by
    intro p
    rw [Graph.recordedTangent_of_op hg hGet, hSlots]
    exact add_zero _
  apply ensures_through (hReady.represents a (by simp))
  · intro hZero p hp
    rw [hTangent]
    exact Operation.differential_eq_zero hFits hp hZero
  · intro t ht
    apply (hRecord t ht.lt ht.shape).imp_extends
    rintro w r' hExtends ⟨hw, hNew⟩
    apply (fills_of_op I inputs hExtends (by simpa using ht.lt) hw.ge hNew).congr
    intro p hp
    rw [hTangent, List.map_singleton, hLinear _ p ht.shape]
    exact Operation.differential_congr hFits hp ht.entry

/-- Such an operation whose shape follows from that of its operand. -/
theorem Forward.ensures_linear_push {v a : ValueId} {op : Operation} {s : Shape}
    (hFits : op.Fits [g.shape a] s) (hSlots : op.slots = [0])
    (hShape : op.resultShape [g.shape a] = .ok s)
    (hg : g.WellFormed) (hGet : g.get? v = some ⟨.op op [a], s⟩)
    (hReady : Ready I inputs tangents g r d [a])
    (hLinear : ∀ (t : Tensor K) (p : Position), t.shape = g.shape a →
      op.entry I [t] s p = op.differential I (g.literal? 0) [g.tensor I inputs a] 0 t.entry s p) :
    Ensures (through (d a) fun t => push op [t]) r fun t r' => r.Extends r' ∧
      r'.graph.Represents I inputs s t (g.recordedTangent I inputs tangents v) := by
  apply Forward.ensures_linear hFits hSlots hg hGet hReady hLinear
  intro t ht hSame
  exact ensures_push (by simpa using ht) (by rwa [List.map_singleton, hSame])

section Operations

variable {v a b : ValueId} {s : Shape} (hg : g.WellFormed)

include hg

/-- The recorded tangent of elementwise arithmetic. -/
theorem Forward.ensures_tangent_arith (hRecorded : g.Recorded) (hDiv : ∀ x y, I.div x y = x / y)
    {op : Arith} (hGet : g.get? v = some ⟨.op (.arith op) [a, b], s⟩)
    (hBroadcast : (g.shape a).broadcast (g.shape b) = .ok s)
    (hReady : Ready I inputs tangents g r d [a, b]) :
    Ensures (arithTangent op a b v (d a) (d b)) r fun t r' => r.Extends r' ∧
      r'.graph.Represents I inputs s t (g.recordedTangent I inputs tangents v) := by
  obtain ⟨ha, hb⟩ := Shape.below_of_broadcast hBroadcast
  have hRule := Forward.ensures_arithTangent hDiv op
    (hReady.spreads (by simp) ha) (hReady.spreads (by simp) hb) (hReady.fills_result hg hGet)
    (hReady.aligned (by simp) ha (hRecorded hGet rfl a (by simp)))
    (hReady.aligned (by simp) hb (hRecorded hGet rfl b (by simp)))
  -- Whether the exponent is a constant is asked of the graph as it is by now.
  rw [hReady.graph.literal?_eq (hReady.lt b (by simp))] at hRule
  apply hRule.imp_extends
  intro t r' _ hPart
  apply hPart.congr
  intro p _
  rw [Graph.recordedTangent_of_op hg hGet]
  simp [Operation.slots, Graph.part, Operation.differential, Graph.tensor]

/-- The recorded tangent of a sum. -/
theorem Forward.ensures_tangent_accumulate (hRecorded : g.Recorded)
    (hGet : g.get? v = some ⟨.op .accumulate [a, b], s⟩)
    (hBroadcast : (g.shape a).broadcast (g.shape b) = .ok s)
    (hReady : Ready I inputs tangents g r d [a, b]) :
    Ensures (Forward.accumulate (d a) (d b)) r fun t r' => r.Extends r' ∧
      r'.graph.Represents I inputs s t (g.recordedTangent I inputs tangents v) := by
  obtain ⟨ha, hb⟩ := Shape.below_of_broadcast hBroadcast
  apply Ensures.imp_extends (Forward.ensures_accumulate
    (hReady.aligned (by simp) ha (hRecorded hGet rfl a (by simp)))
    (hReady.aligned (by simp) hb (hRecorded hGet rfl b (by simp))))
  intro t r' _ hSum
  apply hSum.congr
  intro p _
  rw [Graph.recordedTangent_of_op hg hGet]
  simp [Operation.slots, Graph.part, Operation.differential, Graph.tensor]

/-- The recorded tangent of a named function. -/
theorem Forward.ensures_tangent_call (hDiv : ∀ x y, I.div x y = x / y) {f : NamedFunction}
    (hGet : g.get? v = some ⟨.op (.call f) [a], g.shape a⟩)
    (hReady : Ready I inputs tangents g r d [a]) :
    Ensures (through (d a) (callTangent f a v)) r fun t r' => r.Extends r' ∧
      r'.graph.Represents I inputs (g.shape a) t (g.recordedTangent I inputs tangents v) := by
  -- The slope is read off the operand entry by entry.
  have hSlope : ∀ p ∈ (g.shape a).box, g.recordedTangent I inputs tangents v p =
      I.callSlope f (g.entry I inputs a p) * g.recordedTangent I inputs tangents a p := by
    intro p hp
    rw [Graph.recordedTangent_of_op hg hGet]
    simp [Operation.slots, Graph.part, Operation.differential, Graph.tensor, Tensor.aligned,
      Shape.align_self hp]
  apply Forward.ensures_through (hReady.represents a (by simp))
  · intro hZero p hp
    rw [hSlope p hp, hZero p hp, mul_zero]
  · intro t ht
    have hApplied : r.graph.Fills I inputs (g.shape a) v fun p =>
        I.call f (g.entry I inputs a p) := by
      apply (hReady.fills_result hg hGet).congr
      intro p hp
      simp [Operation.entry, Graph.tensor, Tensor.aligned, Shape.align_self hp]
    apply (Forward.ensures_callTangent hDiv f (hReady.fills (by simp)) hApplied ht).imp_extends
    exact fun w r' _ hPart => hPart.congr fun p hp => (hSlope p hp).symm

/-- The recorded tangent of a contraction. -/
theorem Forward.ensures_tangent_contract {axes : ContractionAxes}
    (hPairable : axes.Pairable (g.shape a) (g.shape b))
    (hGet : g.get? v =
      some ⟨.op (.contract axes) [a, b], axes.outShape (g.shape a) (g.shape b)⟩)
    (hReady : Ready I inputs tangents g r d [a, b]) :
    Ensures (do
      let l ← through (d a) fun t => contract axes t b
      let rt ← through (d b) fun t => contract axes a t
      Forward.add l rt) r fun t r' => r.Extends r' ∧
        r'.graph.Represents I inputs (axes.outShape (g.shape a) (g.shape b)) t
          (g.recordedTangent I inputs tangents v) := by
  apply Ensures.imp_extends (Forward.ensures_contractTangent hPairable
    (hReady.fills (by simp)) (hReady.fills (by simp)) (hReady.represents a (by simp))
    (hReady.represents b (by simp)))
  intro t r' _ hSum
  apply hSum.congr
  intro p _
  rw [Graph.recordedTangent_of_op hg hGet]
  simp [Operation.slots, Graph.part, Operation.differential, Graph.tensor, mul_comm]

end Operations

/-- **What is recorded for an operation represents its tangent.** -/
theorem yields_tangentOf (hg : g.WellFormed) (hRecorded : g.Recorded)
    (hDiv : ∀ x y, I.div x y = x / y) {v : ValueId} {op : Operation} {operands : List ValueId}
    {s : Shape} (hGet : g.get? v = some ⟨.op op operands, s⟩)
    (hForeign : ∀ name, op ≠ .foreign name)
    (hReady : Forward.Ready I inputs tangents g r d operands) :
    Yields (tangentOf op operands v s d) r fun t r' => r.Extends r' ∧
      r'.graph.Represents I inputs s t (g.recordedTangent I inputs tangents v) := by
  have hFits := hg.fits hGet
  unfold tangentOf
  simp only
  split
  · rename_i hNone
    have hNone : ∀ w ∈ operands, d w = none := fun w hw => by
      simpa using List.all_eq_true.mp hNone w hw
    exact yields_pure ⟨Recorder.Extends.refl r, hReady.represents_none hg hGet hNone⟩
  · generalize hShapes : operands.map g.shape = shapes at hFits
    cases hFits with
    | arith hBroadcast =>
      obtain ⟨a, b, rfl, rfl, rfl⟩ := eq_pair_of_map hShapes
      exact yields_lift (Forward.ensures_tangent_arith hg hRecorded hDiv hGet hBroadcast hReady)
    | accumulate hBroadcast =>
      obtain ⟨a, b, rfl, rfl, rfl⟩ := eq_pair_of_map hShapes
      exact yields_lift (Forward.ensures_tangent_accumulate hg hRecorded hGet hBroadcast hReady)
    | call =>
      obtain ⟨a, rfl, rfl⟩ := eq_singleton_of_map hShapes
      exact yields_lift (Forward.ensures_tangent_call hg hDiv hGet hReady)
    | contract hPairable =>
      obtain ⟨a, b, rfl, rfl, rfl⟩ := eq_pair_of_map hShapes
      exact yields_lift (Forward.ensures_tangent_contract hg hPairable hGet hReady)
    | indicator =>
      apply yields_pure
      refine ⟨Recorder.Extends.refl r, ?_⟩
      intro p _
      rw [Graph.recordedTangent_of_op hg hGet]
      rfl
    | neg =>
      obtain ⟨a, rfl, rfl⟩ := eq_singleton_of_map hShapes
      apply yields_lift (Forward.ensures_linear_push .neg rfl rfl hg hGet hReady _)
      intro t p hShape
      simp [Operation.entry, Operation.differential, Tensor.aligned, Graph.tensor, hShape]
    | cast =>
      obtain ⟨a, rfl, rfl⟩ := eq_singleton_of_map hShapes
      apply yields_lift (Forward.ensures_linear_push .cast rfl rfl hg hGet hReady _)
      intro t p hShape
      simp [Operation.entry, Operation.differential]
    | reduceSum hLt hNodup =>
      obtain ⟨a, rfl, rfl⟩ := eq_singleton_of_map hShapes
      apply yields_lift (Forward.ensures_linear_push (.reduceSum hLt hNodup) rfl
        (sumShape_eq_ok.mpr ⟨⟨hLt, hNodup⟩, rfl⟩) hg hGet hReady _)
      intro t p hShape
      simp [Operation.entry, Operation.differential, Graph.tensor, hShape]
    | transpose hLength hLt hNodup =>
      obtain ⟨a, rfl, rfl⟩ := eq_singleton_of_map hShapes
      apply yields_lift (Forward.ensures_linear_push (.transpose hLength hLt hNodup) rfl
        (transposeShape_eq_ok.mpr ⟨⟨hLength, hLt, hNodup⟩, rfl⟩) hg hGet hReady _)
      intro t p hShape
      simp [Operation.entry, Operation.differential]
    | broadcast hStretches =>
      obtain ⟨a, rfl, rfl⟩ := eq_singleton_of_map hShapes
      refine yields_lift (Forward.ensures_linear (.broadcast hStretches) rfl hg hGet hReady ?_ ?_)
      · intro t p hShape
        simp [Operation.entry, Operation.differential, Graph.tensor, hShape]
      · intro t ht hShape
        exact ensures_pushShaped (by simpa using ht) (.broadcast (hShape ▸ hStretches))
    | reshape hSize =>
      obtain ⟨a, rfl, rfl⟩ := eq_singleton_of_map hShapes
      refine yields_lift (Forward.ensures_linear (.reshape hSize) rfl hg hGet hReady ?_ ?_)
      · intro t p hShape
        simp [Operation.entry, Operation.differential, Graph.tensor, hShape]
      · intro t ht hShape
        exact ensures_reshape ht (hShape ▸ hSize)
    | foreign => exact absurd rfl (hForeign _)

end Rule

end ArrayEquations
