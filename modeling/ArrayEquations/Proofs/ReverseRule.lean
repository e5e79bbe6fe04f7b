import ArrayEquations.Proofs.ArrangedAxes
import ArrayEquations.Proofs.Cotangents
import ArrayEquations.Proofs.StretchedAxes
import ArrayEquations.Proofs.UnitSeed

/-!
# ArrayEquations — the recorded cotangents of an operation

What an operation records for an operand is the pullback of its result's cotangent. An
elementwise operation first multiplies by a slope, in the shape of the result, and then
adds up the positions that read an entry of the operand.

## Main definitions

* `Reverse.Gives` — recorded contributions stand for arrays.
* `Reverse.Reached` — what is there when an operation is reached on the way back.

## Main results

* `Reverse.ensures_callContribution`, `Reverse.ensures_lhsContribution`,
  `Reverse.ensures_rhsContribution` — products with slopes.
* `Reverse.yields_contributions` — what is recorded for an operation are its pullbacks.
-/

namespace ArrayEquations

namespace Reverse

open Recording

variable {K : Type*} [Field K] {I : Interpretation K} {inputs : ValueId → Position → K}
  {x : Reverse} {r : Recorder} {out : Shape} {entries₁ entries₂ cts : Position → K}
  {a b ct : ValueId}

/-! ## Products with slopes -/

/-- The contribution of a named function is the cotangent times the slope. -/
theorem ensures_callContribution (hDiv : ∀ y z, I.div y z = y / z) (hx : Underway I x r)
    (f : NamedFunction) {o : ValueId} (ha : r.graph.Fills I inputs out a entries₁)
    (hOut : r.graph.Fills I inputs out o fun p => I.call f (entries₁ p))
    (hCt : Contributes I inputs x r.graph out ct cts) :
    Ensures (x.callContribution f a o ct) r fun v r' => r.Extends r' ∧
      Contributes I inputs x r'.graph out v fun p => cts p * I.callSlope f (entries₁ p) := by
  -- A slope made from a value of the result's shape has that shape.
  have hFactor : ∀ {g : Graph} {v w : ValueId} {entries : Position → K},
      g.Spreads I inputs out v entries → g.shape v = r.graph.shape w → r.graph.shape w = out →
        Multiplies I inputs x g out v entries :=
    fun hSpreads hShape hSame => Multiplies.of_fills (hSpreads.fills (hShape.trans hSame))
  cases f with
  | relu =>
    apply (ensures_positive ha.spreads).bind_extends
    rintro slope r₁ hExtends ⟨hSlope, hShape⟩
    apply (ensures_times_right (hx.extend hExtends) (hFactor hSlope hShape ha.shape)
      (hCt.extend hExtends.graph)).imp_extends
    exact fun v r₂ _ hv => hv.congr fun p _ => mul_comm _ _
  | exp => exact ensures_times_left hx hCt (Multiplies.of_fills hOut)
  | log =>
    apply (ensures_arith_left .div hCt (Multiplies.of_fills ha)).imp_extends
    intro v r' _ hv
    apply hv.congr
    intro p _
    show I.div _ _ = _ * (1 / _)
    rw [hDiv]
    ring
  | sin =>
    apply (ensures_call .cos ha.spreads).bind_extends
    rintro slope r₁ hExtends ⟨hSlope, hShape⟩
    exact ensures_times_left (hx.extend hExtends) (hCt.extend hExtends.graph)
      (hFactor hSlope hShape ha.shape)
  | cos =>
    apply (ensures_call .sin ha.spreads).bind_extends
    rintro slope r₁ hExtends ⟨hSlope, hShape⟩
    apply (ensures_times_left (hx.extend hExtends) (hCt.extend hExtends.graph)
      (hFactor hSlope hShape ha.shape)).bind_extends
    intro product r₂ _ hProduct
    apply (ensures_neg_contributes hProduct).imp_extends
    intro v r₃ _ hv
    apply hv.congr
    intro p _
    show -(_ * _) = _ * -_
    ring
  | tanh =>
    apply (ensures_arithRight .pow 2 hOut.spreads).bind_extends
    rintro square r₁ hExtends₁ ⟨hSquare, hSquareShape⟩
    apply (ensures_arithLeft .sub 1 hSquare).bind_extends
    rintro slope r₂ hExtends₂ ⟨hSlope, hShape⟩
    have hExtends := hExtends₁.trans hExtends₂
    exact ensures_times_left (hx.extend hExtends) (hCt.extend hExtends.graph)
      (hFactor hSlope (hShape.trans hSquareShape) hOut.shape)
  | sqrt =>
    apply (ensures_arithLeft .mul 2 hOut.spreads).bind_extends
    rintro double r₁ hExtends ⟨hDouble, hShape⟩
    apply (ensures_arith_left .div (hCt.extend hExtends.graph)
      (hFactor hDouble hShape hOut.shape)).imp_extends
    intro v r₂ _ hv
    apply hv.congr
    intro p _
    show I.div _ (_ * _) = _ * (1 / (_ * _))
    rw [hDiv]
    ring

/-- The contribution to a left operand is the cotangent times the slope. -/
theorem ensures_lhsContribution (hDiv : ∀ y z, I.div y z = y / z) (hx : Underway I x r)
    (op : Arith) (ha : Multiplies I inputs x r.graph out a entries₁)
    (hb : Multiplies I inputs x r.graph out b entries₂)
    (hCt : Contributes I inputs x r.graph out ct cts) :
    Ensures (x.lhsContribution op a b ct) r fun v r' => r.Extends r' ∧
      Contributes I inputs x r'.graph out v fun p =>
        cts p * I.lhsSlope (r.graph.literal? b) op (entries₁ p) (entries₂ p) := by
  cases op with
  | add => exact ⟨Recorder.Extends.refl r, hCt.congr fun p _ => (mul_one _).symm⟩
  | sub => exact ⟨Recorder.Extends.refl r, hCt.congr fun p _ => (mul_one _).symm⟩
  | mul => exact ensures_times_left hx hCt hb
  | div =>
    apply (ensures_arith_left .div hCt hb).imp_extends
    intro v r' _ hv
    -- The slope of a quotient is recorded as a division by the right operand.
    apply hv.congr
    intro p _
    show I.div _ _ = _ * (1 / _)
    rw [hDiv]
    ring
  | pow =>
    apply (ensures_powerSlope ha.spreads hb.spreads).bind_extends
    rintro slope r₁ hExtends ⟨hSlope, hPlain⟩
    exact ensures_times_left (hx.extend hExtends) (hCt.extend hExtends.graph)
      ⟨hSlope, fun hUnit => hPlain (ha.plain hUnit) (hb.plain hUnit)⟩

/-- The contribution to a right operand is the cotangent times the slope. -/
theorem ensures_rhsContribution (hDiv : ∀ y z, I.div y z = y / z) (hx : Underway I x r)
    (op : Arith) {o : ValueId} (ha : Multiplies I inputs x r.graph out a entries₁)
    (hb : Multiplies I inputs x r.graph out b entries₂)
    (hOut : r.graph.Fills I inputs out o fun p => I.arith op (entries₁ p) (entries₂ p))
    (hCt : Contributes I inputs x r.graph out ct cts) :
    Ensures (x.rhsContribution op a b o ct) r fun v r' => r.Extends r' ∧
      Contributes I inputs x r'.graph out v fun p =>
        cts p * I.rhsSlope op (entries₁ p) (entries₂ p) := by
  cases op with
  | add => exact ⟨Recorder.Extends.refl r, hCt.congr fun p _ => (mul_one _).symm⟩
  | sub =>
    apply (ensures_neg_contributes hCt).imp_extends
    intro v r' _ hv
    apply hv.congr
    intro p _
    show -_ = _ * -1
    ring
  | mul =>
    apply (ensures_times_right hx ha hCt).imp_extends
    exact fun v r' _ hv => hv.congr fun p _ => mul_comm _ _
  | div =>
    apply (ensures_times_left hx hCt ha).bind_extends
    intro product r₁ hExtends₁ hProduct
    apply (ensures_arithRight .pow 2 (hb.spreads.extend hExtends₁.graph)).bind_extends
    rintro square r₂ hExtends₂ ⟨hSquare, hShape⟩
    rw [hExtends₁.graph.shape_eq hb.spreads.lt] at hShape
    apply (ensures_arith_left .div (hProduct.extend hExtends₂.graph)
      ⟨hSquare, fun hUnit => hShape ▸ hb.plain hUnit⟩).bind_extends
    intro quotient r₃ _ hQuotient
    apply (ensures_neg_contributes hQuotient).imp_extends
    intro v r₄ _ hv
    apply hv.congr
    intro p _
    -- The recorded slope is `-(ct * lhs) / rhs ^ 2`, with the negation outside the quotient.
    show -I.div (_ * _) (I.pow _ _) = _ * -(_ / _)
    rw [hDiv]
    ring
  | pow =>
    apply (ensures_call .log ha.spreads).bind_extends
    rintro log r₁ hExtends₁ ⟨hLog, -⟩
    apply (ensures_elementwise_left (combines_arith I .mul)
      (hOut.extend hExtends₁.graph) hLog).bind_extends
    intro slope r₂ hExtends₂ hSlope
    have hExtends := hExtends₁.trans hExtends₂
    exact ensures_times_left (hx.extend hExtends) (hCt.extend hExtends.graph)
      (Multiplies.of_fills hSlope)

/-! ## Contributions of an operand's shape -/

private theorem filter_self_eq {s : Shape} {read : Position → Position} {q p₀ : Position}
    (hp₀ : p₀ ∈ s.box) (hRead : ∀ p ∈ s.box, read p = q ↔ p = p₀) :
    {p ∈ s.box | read p = q} = {p₀} := by
  ext p
  rw [Finset.mem_filter, Finset.mem_singleton]
  constructor
  · rintro ⟨hp, h⟩
    exact (hRead p hp).mp h
  · rintro rfl
    exact ⟨hp₀, (hRead p hp₀).mpr rfl⟩

private theorem sum_align_self {s : Shape} (f : Position → K) {q : Position} (hq : q ∈ s.box) :
    ∑ p ∈ s.box with s.align p = q, f p = f q := by
  rw [filter_self_eq hq fun p hp => by rw [Shape.align_self hp], Finset.sum_singleton]

/-- A contribution of the operand's shape stays as it is. -/
theorem ensures_unbroadcast_self {s : Shape} {v : ValueId}
    (hv : r.graph.Fills I inputs s v entries₁) :
    Ensures (unbroadcast v s) r fun w r' => r.Extends r' ∧
      r'.graph.Fills I inputs s w entries₁ := by
  apply (ensures_unbroadcast (Shape.Below.refl s) hv).imp_extends
  exact fun w r' _ hw => hw.congr fun q hq => sum_align_self _ hq

/-- A contribution of an elementwise operation adds up, for each entry of the operand, the
positions that read it. In a gradient the operand has the result's shape. -/
theorem ensures_unbroadcast_contributes {s : Shape} {v : ValueId} (hs : s.Below out)
    (hSame : x.unit.isSome = true → s = out)
    (hv : Contributes I inputs x r.graph out v entries₁) :
    Ensures (unbroadcast v s) r fun w r' => r.Extends r' ∧
      r'.graph.Fills I inputs s w fun q => ∑ p ∈ out.box with s.align p = q, entries₁ p := by
  rcases hv.shape with hShape | ⟨hUnit, hShape⟩
  · exact ensures_unbroadcast hs (hv.spreads.fills hShape)
  · obtain rfl := hSame hUnit
    apply (ensures_unbroadcast_scalar hShape hv.spreads).imp_extends
    exact fun w r' _ hw => hw.congr fun q hq => (sum_align_self _ hq).symm

/-! ## Pullbacks -/

/-- The recorded contribution goes to the operand of the pullback and holds its entries. -/
def Gives (I : Interpretation K) (inputs : ValueId → Position → K) (x : Reverse) (g : Graph)
    (pullback : ValueId × (Position → K)) (given : ValueId × ValueId) : Prop :=
  given.1 = pullback.1 ∧ g.Fills I inputs (x.graph.shape pullback.1) given.2 pullback.2

theorem Gives.extend {g g' : Graph} {pullback : ValueId × (Position → K)}
    {given : ValueId × ValueId} (h : Gives I inputs x g pullback given)
    (hExtends : g.Extends g') : Gives I inputs x g' pullback given :=
  h.imp_right (·.extend hExtends)

/-- What is given has the shapes of the values that it is given to. -/
theorem hasShape_of_gives {g : Graph} {shares : List (ValueId × (Position → K))}
    {given : List (ValueId × ValueId)} (h : List.Forall₂ (Gives I inputs x g) shares given) :
    ∀ y ∈ given, g.HasShape y.2 (x.graph.shape y.1) := by
  intro y hy
  obtain ⟨share, -, hTarget, hFills⟩ := exists_beside_of_forall₂ h hy
  exact ⟨hFills.lt, hTarget ▸ hFills.shape⟩

theorem ensures_emit {operand : ValueId} {contribution : Recording ValueId}
    {cotangent : Position → K}
    (h : x.depends.contains operand = true →
      Ensures (contribution >>= fun c => unbroadcast c (x.graph.shape operand)) r fun c r' =>
        r.Extends r' ∧ r'.graph.Fills I inputs (x.graph.shape operand) c cotangent) :
    Ensures (x.emit operand contribution) r fun given r' => r.Extends r' ∧
      List.Forall₂ (Gives I inputs x r'.graph) (x.share operand cotangent) given := by
  unfold emit share
  split
  · rename_i hDepends
    have h := h hDepends
    show Ensures ((contribution >>= fun c => unbroadcast c (x.graph.shape operand)) >>= fun c =>
      pure [(operand, c)]) r _
    apply h.bind_extends
    exact fun c r' _ hFills => ⟨Recorder.Extends.refl r', .cons ⟨rfl, hFills⟩ .nil⟩
  · exact ⟨Recorder.Extends.refl r, .nil⟩

/-- A contribution that has the operand's shape already. -/
theorem ensures_emit_fills {operand : ValueId} {contribution : Recording ValueId}
    {cotangent : Position → K}
    (h : Ensures contribution r fun c r' =>
      r.Extends r' ∧ r'.graph.Fills I inputs (x.graph.shape operand) c cotangent) :
    Ensures (x.emit operand contribution) r fun given r' => r.Extends r' ∧
      List.Forall₂ (Gives I inputs x r'.graph) (x.share operand cotangent) given := by
  apply ensures_emit
  intro _
  exact h.bind_extends fun c r₁ _ hc => ensures_unbroadcast_self hc

/-- A contribution of an elementwise operation. -/
theorem ensures_emit_elementwise {operand : ValueId} {contribution : Recording ValueId}
    {slopes : Position → K} (hBelow : (x.graph.shape operand).Below out)
    (hSame : x.depends.contains operand = true → x.unit.isSome = true →
      x.graph.shape operand = out)
    (h : Ensures contribution r fun c r' =>
      r.Extends r' ∧ Contributes I inputs x r'.graph out c fun p => cts p * slopes p) :
    Ensures (x.emit operand contribution) r fun given r' => r.Extends r' ∧
      List.Forall₂ (Gives I inputs x r'.graph) (x.share operand fun q => ∑ p ∈ out.box,
        cts p * (slopes p * Operation.unitArray q ((x.graph.shape operand).align p))) given := by
  apply ensures_emit
  intro hDepends
  apply h.bind_extends
  intro c r₁ _ hc
  apply (ensures_unbroadcast_contributes hBelow (hSame hDepends) hc).imp_extends
  intro w r₂ _ hw
  apply hw.congr
  intro q _
  rw [← Operation.sum_unitArray]
  exact Finset.sum_congr rfl fun p _ => by rw [mul_assoc]

/-! ## Rearranged cotangents -/

/-- The pullback through an operation that reads one entry of its operand at each position. -/
private theorem pullback_read {s : Shape} {read : Position → Position} {q p₀ : Position}
    (hp₀ : p₀ ∈ s.box) (hRead : ∀ p ∈ s.box, read p = q ↔ p = p₀) (cts : Position → K) :
    ∑ p ∈ s.box, cts p * (1 * Operation.unitArray q (read p)) = cts p₀ := by
  simp only [one_mul]
  rw [Operation.sum_unitArray, filter_self_eq hp₀ hRead, Finset.sum_singleton]

/-- An operation that moves the entries of its operand, each to a place of its own, gives it the
cotangent moved back. -/
theorem ensures_emit_moved {operand : ValueId} {contribution : Recording ValueId} {s : Shape}
    {read back : Position → Position}
    (hBack : ∀ q ∈ (x.graph.shape operand).box, back q ∈ s.box)
    (hRead : ∀ q ∈ (x.graph.shape operand).box, ∀ p ∈ s.box, read p = q ↔ p = back q)
    (h : Ensures contribution r fun c r' => r.Extends r' ∧
      r'.graph.Fills I inputs (x.graph.shape operand) c fun q => cts (back q)) :
    Ensures (x.emit operand contribution) r fun given r' => r.Extends r' ∧
      List.Forall₂ (Gives I inputs x r'.graph) (x.share operand fun q => ∑ p ∈ s.box,
        cts p * (1 * Operation.unitArray q (read p))) given := by
  apply ensures_emit_fills
  apply h.imp_extends
  intro c r' _ hc
  exact hc.congr fun q hq => (pullback_read (hBack q hq) (hRead q hq) cts).symm

/-- The pullback through a sum: an entry takes part in one sum only. -/
private theorem pullback_sum {axes : List Nat} {s : Shape} {q : Position} (hq : q ∈ s.box)
    (cts : Position → K) :
    ∑ p ∈ (s.without axes).box, cts p *
        ∑ q' ∈ summedPositions axes s p, 1 * Operation.unitArray q q' =
      cts ((s.axes.filter fun axis => !axes.contains axis).map q.coord) := by
  -- An operand's position is summed into just one position of the result.
  have hMem : ∀ p, q ∈ summedPositions axes s p ↔
      (s.axes.filter fun axis => !axes.contains axis).map q.coord = p := by
    intro p
    rw [summedPositions, Finset.mem_filter]
    exact and_iff_right hq
  rw [Finset.sum_eq_single ((s.axes.filter fun axis => !axes.contains axis).map q.coord)]
  · rw [Finset.sum_eq_single q]
    · rw [Operation.unitArray_self, mul_one, mul_one]
    · intro q' _ hNe
      rw [Operation.unitArray_of_ne hNe, mul_zero]
    · intro hNot
      exact absurd ((hMem _).mpr rfl) hNot
  · intro p _ hNe
    rw [Finset.sum_eq_zero, mul_zero]
    intro q' hq'
    have hDiffer : q' ≠ q := by
      rintro rfl
      exact hNe ((hMem p).mp hq').symm
    rw [Operation.unitArray_of_ne hDiffer, mul_zero]
  · intro hNot
    exact absurd (Shape.map_coord_mem_box hq fun a ha =>
      List.mem_range.mp (List.mem_of_mem_filter ha)) hNot

/-- A sum hands its cotangent to all entries that it adds up. -/
theorem ensures_spreadOut {axes : List Nat} {s : Shape}
    (hCt : r.graph.Fills I inputs (s.without axes) ct cts) :
    Ensures (pushShaped (.broadcast (s.axes.filter fun axis => !axes.contains axis)) [ct] s) r
      fun v r' => r.Extends r' ∧ r'.graph.Fills I inputs s v fun q =>
        cts ((s.axes.filter fun axis => !axes.contains axis).map q.coord) := by
  generalize hKept : (s.axes.filter fun axis => !axes.contains axis) = kept
  have hShape : r.graph.shape ct = kept.map s.extent := by
    rw [hCt.shape, Shape.without, hKept]
  have hLt : ∀ a ∈ kept, a < s.rank := by
    intro a ha
    rw [← hKept] at ha
    exact List.mem_range.mp (List.mem_of_mem_filter ha)
  have hGet : ∀ k (hk : k < kept.length), kept.getD k 0 = kept[k] := by
    intro k hk
    simp [List.getD, hk]
  have hRank : Shape.rank (kept.map s.extent) = kept.length := by simp [Shape.rank]
  have hStretches : (r.graph.shape ct).Stretches kept s := by
    rw [hShape]
    refine ⟨hRank.symm, ?_, hLt, ?_⟩
    · rw [← hKept]
      exact List.pairwise_lt_range.filter _
    · intro k hk
      rw [hRank] at hk
      right
      rw [Shape.extent_map hk, hGet k hk]
  have hOperands : ∀ w ∈ [ct], w < r.graph.size := by simpa using hCt.lt
  apply (ensures_pushShaped hOperands (.broadcast hStretches)).imp_extends
  rintro v r' hExtends ⟨hv, hNew⟩
  apply (fills_of_op I inputs hExtends hOperands hv.ge hNew).congr
  intro q hq
  -- An axis of extent one is read at zero, which is where `q` stands on it.
  have hRead : (r.graph.shape ct).project kept q = kept.map q.coord := by
    rw [hShape]
    apply List.ext_getElem
    · simp [Shape.project, hRank]
    · intro k h₁ h₂
      have hk : k < kept.length := by simpa using h₂
      simp only [Shape.project, Position.tabulate, List.getElem_map, List.getElem_range,
        Shape.extent_map hk, hGet k hk]
      split
      · rename_i hOne
        exact (Shape.coord_eq_zero hq hOne).symm
      · rfl
  show r.graph.entry I inputs ct ((r.graph.shape ct).project kept q) = _
  rw [hRead]
  apply hCt.entry
  rw [Shape.without, hKept]
  exact Shape.map_coord_mem_box hq hLt

/-! ## When an operation is reached -/

section Rule

open Differentiating

variable {v : ValueId} {op : Operation} {operands : List ValueId} {s : Shape}

/-- What is there when an operation is reached on the way back: its result and its operands, and
the cotangent of the result. -/
structure Reached (I : Interpretation K) (inputs : ValueId → Position → K) (x : Reverse)
    (r : Recorder) (v ct : ValueId) (op : Operation) (operands : List ValueId) (s : Shape)
    (cts : Position → K) : Prop where
  underway : Underway I x r
  get? : x.graph.get? v = some ⟨.op op operands, s⟩
  cotangent : r.graph.Fills I inputs s ct cts

namespace Reached

theorem extend {r' : Recorder} (h : Reached I inputs x r v ct op operands s cts)
    (hExtends : r.Extends r') : Reached I inputs x r' v ct op operands s cts :=
  ⟨h.underway.extend hExtends, h.get?, h.cotangent.extend hExtends.graph⟩

theorem shape (h : Reached I inputs x r v ct op operands s cts) : x.graph.shape v = s :=
  Graph.shape_of_get? h.get?

theorem lt (h : Reached I inputs x r v ct op operands s cts) {w : ValueId} (hw : w ∈ operands) :
    w < x.graph.size :=
  Nat.lt_trans (h.underway.source.before h.get? w hw) (Graph.lt_size_of_get? h.get?)

/-- The operands and the result hold what they hold in the graph that is differentiated. -/
theorem fills (h : Reached I inputs x r v ct op operands s cts) {w : ValueId}
    (hw : w ∈ operands) :
    r.graph.Fills I inputs (x.graph.shape w) w (x.graph.entry I inputs w) :=
  (Graph.fills_self I inputs (h.lt hw)).extend h.underway.graph

theorem fills_result (h : Reached I inputs x r v ct op operands s cts) :
    r.graph.Fills I inputs s v (op.entry I (operands.map (x.graph.tensor I inputs)) s) := by
  have hFills := (Graph.fills_self I inputs (Graph.lt_size_of_get? h.get?)).extend
    h.underway.graph
  rw [h.shape] at hFills
  exact hFills.congr fun p _ => Graph.entry_of_op h.get? (h.underway.source.before h.get?) p

/-- An operand that is read at its own positions. -/
theorem fills_aligned (h : Reached I inputs x r v ct op operands s cts) {w : ValueId}
    (hw : w ∈ operands) :
    r.graph.Fills I inputs (x.graph.shape w) w (x.graph.tensor I inputs w).aligned := by
  apply (h.fills hw).congr
  intro p hp
  rw [Tensor.aligned, Graph.tensor, Shape.align_self hp]

/-- An operand of an elementwise operation may multiply a contribution. -/
theorem multiplies (h : Reached I inputs x r v ct op operands s cts)
    (hElementwise : op.isElementwise = true) {w : ValueId} (hw : w ∈ operands)
    (hBelow : (x.graph.shape w).Below s) :
    Multiplies I inputs x r.graph s w (x.graph.tensor I inputs w).aligned := by
  refine ⟨(Graph.spreads_self I inputs (h.lt hw) hBelow).extend h.underway.graph, ?_⟩
  intro hUnit
  rw [h.underway.graph.shape_eq (h.lt hw)]
  cases hLiteral : x.graph.literal? w with
  | none => exact Or.inl (h.underway.recorded hUnit h.get? hElementwise w hw hLiteral)
  | some c => exact Or.inr (h.underway.source.literal_shape (Graph.literal?_eq_some hLiteral))

/-- In a gradient an operand of an elementwise operation that depends on a chosen argument is
not smaller than the result. -/
theorem same_shape (h : Reached I inputs x r v ct op operands s cts)
    (hElementwise : op.isElementwise = true) {w : ValueId} (hw : w ∈ operands) :
    x.depends.contains w = true → x.unit.isSome = true → x.graph.shape w = s :=
  fun hDepends hUnit => h.underway.recorded hUnit h.get? hElementwise w hw
    (h.underway.not_literal w hDepends)

/-! ### Contributions before they are brought to the shapes of the operands -/

variable {f : NamedFunction}

theorem ensures_lhs (hDiv : ∀ y z, I.div y z = y / z) {op : Arith}
    (h : Reached I inputs x r v ct (.arith op) [a, b] s cts) (ha : (x.graph.shape a).Below s)
    (hb : (x.graph.shape b).Below s) :
    Ensures (x.lhsContribution op a b ct) r fun c r' => r.Extends r' ∧
      Contributes I inputs x r'.graph s c fun p => cts p * I.lhsSlope (x.graph.literal? b) op
        ((x.graph.tensor I inputs a).aligned p) ((x.graph.tensor I inputs b).aligned p) := by
  have hLeft := ensures_lhsContribution hDiv h.underway op (h.multiplies rfl (w := a) (by simp) ha)
    (h.multiplies rfl (w := b) (by simp) hb) (.of_fills h.cotangent)
  -- Whether the exponent is a constant is asked of the graph as it is by now.
  rwa [h.underway.graph.literal?_eq (h.lt (by simp))] at hLeft

theorem ensures_rhs (hDiv : ∀ y z, I.div y z = y / z) {op : Arith}
    (h : Reached I inputs x r v ct (.arith op) [a, b] s cts) (ha : (x.graph.shape a).Below s)
    (hb : (x.graph.shape b).Below s) :
    Ensures (x.rhsContribution op a b v ct) r fun c r' => r.Extends r' ∧
      Contributes I inputs x r'.graph s c fun p => cts p * I.rhsSlope op
        ((x.graph.tensor I inputs a).aligned p) ((x.graph.tensor I inputs b).aligned p) :=
  ensures_rhsContribution hDiv h.underway op (h.multiplies rfl (w := a) (by simp) ha)
    (h.multiplies rfl (w := b) (by simp) hb) h.fills_result (.of_fills h.cotangent)

theorem ensures_call (hDiv : ∀ y z, I.div y z = y / z)
    (h : Reached I inputs x r v ct (.call f) [a] (x.graph.shape a) cts) :
    Ensures (x.callContribution f a v ct) r fun c r' => r.Extends r' ∧
      Contributes I inputs x r'.graph (x.graph.shape a) c fun p =>
        cts p * I.callSlope f ((x.graph.tensor I inputs a).aligned p) :=
  ensures_callContribution hDiv h.underway f (h.fills_aligned (by simp)) h.fills_result
    (.of_fills h.cotangent)

/-- The slope of a sum is one on either side. -/
theorem ensures_passed (h : Reached I inputs x r v ct op operands s cts) :
    Ensures (pure ct) r fun c r' => r.Extends r' ∧
      Contributes I inputs x r'.graph s c fun p => cts p * 1 :=
  ⟨Recorder.Extends.refl r,
    (Contributes.of_fills h.cotangent).congr fun _ _ => (mul_one _).symm⟩

end Reached

/-! ## All operations -/

private theorem yields_one {m : Recording (List (ValueId × ValueId))}
    {shares : List (ValueId × (Position → K))}
    (h : Ensures m r fun given r' => r.Extends r' ∧
      List.Forall₂ (Gives I inputs x r'.graph) shares given) :
    Yields (liftM m) r fun given r' => r.Extends r' ∧
      List.Forall₂ (Gives I inputs x r'.graph) (shares ++ []) given := by
  rw [List.append_nil]
  exact yields_lift h

private theorem yields_two {m m' : Recording (List (ValueId × ValueId))}
    {shares shares' : List (ValueId × (Position → K))}
    (h : Ensures m r fun given r' => r.Extends r' ∧
      List.Forall₂ (Gives I inputs x r'.graph) shares given)
    (h' : ∀ r₁, r.Extends r₁ → Ensures m' r₁ fun given r' => r₁.Extends r' ∧
      List.Forall₂ (Gives I inputs x r'.graph) shares' given) :
    Yields (do
      let left ← m
      let right ← m'
      return left ++ right : Differentiating _) r fun given r' => r.Extends r' ∧
        List.Forall₂ (Gives I inputs x r'.graph) (shares ++ (shares' ++ [])) given := by
  apply Yields.bind (yields_lift h)
  rintro left r₁ ⟨hExtends, hLeft⟩
  apply Yields.bind (yields_lift (h' r₁ hExtends))
  rintro right r₂ ⟨hExtends', hRight⟩
  apply yields_pure
  rw [List.append_nil]
  refine ⟨hExtends.trans hExtends', List.rel_append ?_ hRight⟩
  exact hLeft.imp fun _ _ hGives => hGives.extend hExtends'.graph

/-- Either operand of elementwise arithmetic is sent the cotangent times its slope. -/
theorem yields_contributions_arith (hDiv : ∀ y z, I.div y z = y / z) {op : Arith}
    (h : Reached I inputs x r v ct (.arith op) [a, b] s cts)
    (hBroadcast : (x.graph.shape a).broadcast (x.graph.shape b) = .ok s) :
    Yields (x.contributions (.arith op) [a, b] v ct) r fun given r' => r.Extends r' ∧
      List.Forall₂ (Gives I inputs x r'.graph)
        (x.pullbacks I inputs (.arith op) [a, b] s cts) given := by
  obtain ⟨ha, hb⟩ := Shape.below_of_broadcast hBroadcast
  apply yields_two
  · exact ensures_emit_elementwise ha (h.same_shape rfl (by simp)) (h.ensures_lhs hDiv ha hb)
  · -- The right operand is served in the graph that the left one leaves.
    intro r₁ hExtends
    exact ensures_emit_elementwise hb (h.same_shape rfl (by simp))
      ((h.extend hExtends).ensures_rhs hDiv ha hb)

/-- Both summands are sent the cotangent itself. -/
theorem yields_contributions_accumulate (h : Reached I inputs x r v ct .accumulate [a, b] s cts)
    (hBroadcast : (x.graph.shape a).broadcast (x.graph.shape b) = .ok s) :
    Yields (x.contributions .accumulate [a, b] v ct) r fun given r' => r.Extends r' ∧
      List.Forall₂ (Gives I inputs x r'.graph)
        (x.pullbacks I inputs .accumulate [a, b] s cts) given := by
  obtain ⟨ha, hb⟩ := Shape.below_of_broadcast hBroadcast
  apply yields_two
  · exact ensures_emit_elementwise ha (h.same_shape rfl (by simp)) h.ensures_passed
  · intro r₁ hExtends
    exact ensures_emit_elementwise hb (h.same_shape rfl (by simp))
      (h.extend hExtends).ensures_passed

/-- The factors of a contraction are sent the cotangent contracted with the other factor. -/
theorem yields_contributions_contract {axes : ContractionAxes}
    (hPairable : axes.Pairable (x.graph.shape a) (x.graph.shape b))
    (h : Reached I inputs x r v ct (.contract axes) [a, b]
      (axes.outShape (x.graph.shape a) (x.graph.shape b)) cts) :
    Yields (x.contributions (.contract axes) [a, b] v ct) r fun given r' => r.Extends r' ∧
      List.Forall₂ (Gives I inputs x r'.graph) (x.pullbacks I inputs (.contract axes) [a, b]
        (axes.outShape (x.graph.shape a) (x.graph.shape b)) cts) given := by
  apply yields_two
  · apply ensures_emit_fills
    apply (ensures_contractLhs hPairable h.cotangent (h.fills (w := b) (by simp))).imp_extends
    intro c r' _ hc
    apply hc.congr
    intro q _
    apply Finset.sum_congr rfl
    intro p _
    rw [← Finset.mul_sum, ← Operation.sum_unitArray]
    rfl
  · intro r₁ hExtends
    have h₁ := h.extend hExtends
    apply ensures_emit_fills
    apply (ensures_contractRhs hPairable (h₁.fills (w := a) (by simp)) h₁.cotangent).imp_extends
    intro c r' _ hc
    apply hc.congr
    intro q _
    apply Finset.sum_congr rfl
    intro p _
    rw [← Finset.sum_mul, ← Operation.sum_unitArray, mul_comm]
    rfl

/-! ### Operations on one operand -/

theorem ensures_emit_neg (hCt : r.graph.Fills I inputs (x.graph.shape a) ct cts) :
    Ensures (x.emit a (neg ct)) r fun given r' => r.Extends r' ∧
      List.Forall₂ (Gives I inputs x r'.graph) (x.share a fun q =>
        ∑ p ∈ (x.graph.shape a).box,
          cts p * (-1 * Operation.unitArray q ((x.graph.shape a).align p))) given := by
  apply ensures_emit_elementwise (Shape.Below.refl _) fun _ _ => rfl
  apply (ensures_neg_fills hCt).imp_extends
  intro c r' _ hc
  refine .of_fills (hc.congr ?_)
  intro p _
  show -_ = _ * -1
  ring

theorem ensures_emit_reshape (hSize : (x.graph.shape a).size = s.size)
    (hCt : r.graph.Fills I inputs s ct cts) :
    Ensures (x.emit a (reshape ct (x.graph.shape a))) r fun given r' => r.Extends r' ∧
      List.Forall₂ (Gives I inputs x r'.graph) (x.share a fun q => ∑ p ∈ s.box,
        cts p * (1 * Operation.unitArray q ((x.graph.shape a).reshaped s p))) given := by
  apply ensures_emit_moved (fun q hq => Shape.reshaped_mem_box hSize.symm hq) _
    (ensures_reshape_fills hSize.symm hCt)
  intro q hq p hp
  -- Reshaping there and back again is the identity, in either direction.
  rw [Shape.eq_reshaped_iff hSize.symm hq hp, eq_comm, Shape.eq_reshaped_iff hSize hp hq, eq_comm]

theorem ensures_emit_transpose {permutation : List Nat} (hPermutation : IsPermutation permutation)
    (hLength : permutation.length = (x.graph.shape a).rank)
    (hCt : r.graph.Fills I inputs (permutation.map (x.graph.shape a).extent) ct cts) :
    Ensures (x.emit a (transpose ct (inversePermutation permutation))) r fun given r' =>
      r.Extends r' ∧ List.Forall₂ (Gives I inputs x r'.graph) (x.share a fun q =>
        ∑ p ∈ Shape.box (permutation.map (x.graph.shape a).extent),
          cts p * (1 * Operation.unitArray q (unpermute permutation p))) given := by
  apply ensures_emit_moved _ _ (ensures_transpose_inverse hPermutation hLength hCt)
  · intro q hq
    exact Shape.map_coord_mem_box hq fun axis hAxis => hLength ▸ hPermutation.lt_length axis hAxis
  · intro q hq p hp
    have hq' : q.length = permutation.length := by rw [Shape.length_of_mem_box hq, hLength]
    have hp' : p.length = permutation.length := by
      rw [Shape.length_of_mem_box hp]
      simp [Shape.rank]
    rw [eq_comm, eq_unpermute_iff hPermutation hp' hq', eq_comm]

/-- **What is recorded for an operation are its pullbacks.** -/
theorem yields_contributions (hDiv : ∀ y z, I.div y z = y / z)
    (h : Reached I inputs x r v ct op operands s cts) (hForeign : ∀ name, op ≠ .foreign name) :
    Yields (x.contributions op operands v ct) r fun given r' => r.Extends r' ∧
      List.Forall₂ (Gives I inputs x r'.graph) (x.pullbacks I inputs op operands s cts) given := by
  have hFits := h.underway.source.fits h.get?
  have hCt := h.cotangent
  generalize hShapes : operands.map x.graph.shape = shapes at hFits
  cases hFits with
  | arith hBroadcast =>
    obtain ⟨a, b, rfl, rfl, rfl⟩ := eq_pair_of_map hShapes
    exact yields_contributions_arith hDiv h hBroadcast
  | accumulate hBroadcast =>
    obtain ⟨a, b, rfl, rfl, rfl⟩ := eq_pair_of_map hShapes
    exact yields_contributions_accumulate h hBroadcast
  | neg =>
    obtain ⟨a, rfl, rfl⟩ := eq_singleton_of_map hShapes
    exact yields_one (ensures_emit_neg hCt)
  | call =>
    obtain ⟨a, rfl, rfl⟩ := eq_singleton_of_map hShapes
    exact yields_one (ensures_emit_elementwise (Shape.Below.refl _) (fun _ _ => rfl)
      (h.ensures_call hDiv))
  | indicator => exact ⟨[], rfl, Recorder.Extends.refl r, .nil⟩
  | cast =>
    obtain ⟨a, rfl, rfl⟩ := eq_singleton_of_map hShapes
    exact yields_one (ensures_emit_moved (fun _ hq => hq) (fun _ _ _ _ => Iff.rfl)
      ⟨Recorder.Extends.refl r, hCt⟩)
  | reshape hSize =>
    obtain ⟨a, rfl, rfl⟩ := eq_singleton_of_map hShapes
    exact yields_one (ensures_emit_reshape hSize hCt)
  | transpose hLength hLt hNodup =>
    obtain ⟨a, rfl, rfl⟩ := eq_singleton_of_map hShapes
    exact yields_one (ensures_emit_transpose ⟨hLength ▸ hLt, hNodup⟩ hLength hCt)
  | broadcast hStretches =>
    obtain ⟨a, rfl, rfl⟩ := eq_singleton_of_map hShapes
    -- This rule alone asks the graph for the shape of the result.
    unfold contributions
    simp only
    rw [h.shape]
    apply yields_one
    apply ensures_emit_fills
    apply (ensures_broadcastContribution hStretches hCt).imp_extends
    intro c r' _ hc
    apply hc.congr
    intro q _
    rw [← Operation.sum_unitArray]
    exact Finset.sum_congr rfl fun p _ => by rw [← one_mul (Operation.unitArray q _)]; rfl
  | reduceSum =>
    obtain ⟨a, rfl, rfl⟩ := eq_singleton_of_map hShapes
    apply yields_one
    apply ensures_emit_fills
    apply (ensures_spreadOut hCt).imp_extends
    exact fun c r' _ hc => hc.congr fun q hq => (pullback_sum hq cts).symm
  | contract hPairable =>
    obtain ⟨a, b, rfl, rfl, rfl⟩ := eq_pair_of_map hShapes
    exact yields_contributions_contract hPairable h
  | foreign => exact absurd rfl (hForeign _)

end Rule

end Reverse

end ArrayEquations
