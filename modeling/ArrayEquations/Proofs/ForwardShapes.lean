import ArrayEquations.Proofs.DerivedForward
import ArrayEquations.Proofs.DerivedTrace
import ArrayEquations.Proofs.ForwardSoundness

/-!
# ArrayEquations — the shapes of tangents

A tangent has the shape of its primal, provided that sums are not stretched without notice: where
only one summand has a tangent, that tangent is handed on as it is, and has the shape of the
summand. An import accepts summands that are smaller than their sum. The tangent of such a sum may
be too small, and later operations on it may then fail.

Where every summand that depends on a chosen argument has the shape of its sum, a forward
differentiation has a result, and the result passes every check of an import.

## Main definitions

* `Recording.Shapes` — an action that yields a value of a shape.
* `Graph.DependsOn` — a value is computed from one of the sources.
* `Graph.FullSummands` — summands that depend on the sources have the shape of their sum.

## Main results

* `Forward.shaped_tangentOf` — the tangent of an operation has the shape of its result.
* `Trace.jvp_importable` — the result of a forward differentiation can be imported.
* `Trace.jvp_fails_on_small_summand` — a trace with a smaller summand has none.
-/

namespace ArrayEquations

/-! ## Shapes of recorded values -/

namespace Recording

/-- The action yields a value of the shape. -/
def Shapes (m : Recording ValueId) (r : Recorder) (s : Shape) : Prop :=
  Ensures m r fun v r' => r.Extends r' ∧ r'.graph.HasShape v s

variable {r : Recorder} {a b : ValueId} {s sa sb out : Shape} {m : Recording ValueId}
  {f : ValueId → Recording ValueId}

/-- One action after the other. -/
theorem Shapes.bind (h : Shapes m r s)
    (hNext : ∀ v r', r.Extends r' → r'.graph.HasShape v s → Shapes (f v) r' out) :
    Shapes (m >>= f) r out :=
  Ensures.bind_extends h hNext

/-- An action that keeps the shape of its operand, read off the entries that it computes. -/
theorem shapes_of_spreads (ha : r.graph.HasShape a s)
    {entries : (Position → ℚ) → Position → ℚ}
    (h : ∀ {e : Position → ℚ}, r.graph.Spreads plainReading 0 s a e →
      Ensures m r fun v r' => r.Extends r' ∧
        r'.graph.Spreads plainReading 0 s v (entries e) ∧ r'.graph.shape v = r.graph.shape a) :
    Shapes m r s := by
  obtain ⟨haLt, rfl⟩ := ha
  apply (h (Graph.spreads_self plainReading 0 haLt (Shape.Below.refl _))).imp_extends
  rintro v r' - ⟨hSpreads, hShape⟩
  exact ⟨hSpreads.lt, hShape⟩

theorem shapes_elementwise {op : Operation} {f : ℚ → ℚ → ℚ} (hOp : Combines plainReading op f)
    (ha : r.graph.HasShape a sa) (hb : r.graph.HasShape b sb) (h : sa.broadcast sb = .ok out) :
    Shapes (elementwise op a b) r out := by
  obtain ⟨haBelow, hbBelow⟩ := Shape.below_of_broadcast h
  obtain ⟨haLt, rfl⟩ := ha
  obtain ⟨hbLt, rfl⟩ := hb
  apply (ensures_elementwise hOp (Graph.spreads_self plainReading 0 haLt haBelow)
    (Graph.spreads_self plainReading 0 hbLt hbBelow)).imp_extends
  rintro v r' - ⟨hSpreads, hShape⟩
  exact ⟨hSpreads.lt, (Except.ok.inj (h.symm.trans hShape)).symm⟩

theorem shapes_arith (op : Arith) (ha : r.graph.HasShape a sa) (hb : r.graph.HasShape b sb)
    (h : sa.broadcast sb = .ok out) : Shapes (arith op a b) r out :=
  shapes_elementwise (combines_arith plainReading op) ha hb h

/-- An operand that is not stretched gives its shape to the result. -/
theorem shapes_arith_left (op : Arith) (ha : r.graph.HasShape a s) (hb : r.graph.HasShape b sb)
    (hBelow : sb.Below s) : Shapes (arith op a b) r s :=
  shapes_arith op ha hb (Shape.broadcast_of_below_right hBelow)

theorem shapes_arith_right (op : Arith) (ha : r.graph.HasShape a sa) (hb : r.graph.HasShape b s)
    (hBelow : sa.Below s) : Shapes (arith op a b) r s :=
  shapes_arith op ha hb (Shape.broadcast_of_below_left hBelow)

theorem shapes_neg (ha : r.graph.HasShape a s) : Shapes (neg a) r s :=
  shapes_of_spreads ha ensures_neg

theorem shapes_call (f : NamedFunction) (ha : r.graph.HasShape a s) : Shapes (call f a) r s :=
  shapes_of_spreads ha (ensures_call f)

theorem shapes_arithRight (op : Arith) (x : Float) (ha : r.graph.HasShape a s) :
    Shapes (arithRight op a x) r s :=
  shapes_of_spreads ha (ensures_arithRight op x)

theorem shapes_arithLeft (op : Arith) (x : Float) (ha : r.graph.HasShape a s) :
    Shapes (arithLeft op x a) r s :=
  shapes_of_spreads ha (ensures_arithLeft op x)

theorem shapes_positive (ha : r.graph.HasShape a s) : Shapes (positive a) r s :=
  shapes_of_spreads ha ensures_positive

/-- The slope of a power has the shape of the power; a constant exponent does not stretch it. -/
theorem shapes_powerSlope (ha : r.graph.HasShape a sa) (hb : r.graph.HasShape b sb)
    (h : sa.broadcast sb = .ok out) (hConstant : (r.graph.literal? b).isSome = true → sb = []) :
    Shapes (powerSlope a b) r out := by
  obtain ⟨-, hbBelow⟩ := Shape.below_of_broadcast h
  unfold powerSlope
  apply ensures_literalOf?_bind
  cases hLiteral : r.graph.literal? b with
  | some c =>
    -- A constant exponent is a number, and the base alone gives the shape.
    have hScalar : sb = [] := hConstant (by rw [hLiteral]; rfl)
    subst hScalar
    obtain rfl : out = sa := Shape.eq_of_broadcast_below h (Shape.Below.nil _)
    simp only
    split
    · exact shapes_arithLeft .mul c ha
    · apply (shapes_arithRight .pow (c - 1) ha).bind
      intro power r₁ _ hPower
      exact shapes_arithLeft .mul c hPower
  | none =>
    apply (shapes_arithRight .sub 1 hb).bind
    intro exponent r₁ hExtends₁ hExponent
    apply (shapes_arith .pow (ha.extend hExtends₁.graph) hExponent h).bind
    intro power r₂ hExtends₂ hPower
    exact shapes_arith_right .mul (hb.extend (hExtends₁.graph.trans hExtends₂.graph)) hPower hbBelow

/-- An operation whose shape follows from those of its operands. -/
theorem shapes_push {op : Operation} {operands : List ValueId}
    (hLt : ∀ w ∈ operands, w < r.graph.size)
    (hShape : op.resultShape (operands.map r.graph.shape) = .ok s) :
    Shapes (push op operands) r s := by
  apply (ensures_push hLt hShape).imp_extends
  rintro v r' - ⟨-, hGet⟩
  exact Graph.hasShape_of_get? hGet

/-- An operation on one operand. -/
theorem shapes_push_one {op : Operation} (ha : r.graph.HasShape a sa)
    (hShape : op.resultShape [sa] = .ok s) : Shapes (push op [a]) r s := by
  refine shapes_push (by simpa using ha.1) ?_
  rwa [List.map_singleton, ha.2]

theorem shapes_contract {axes : ContractionAxes} (hPairable : axes.Pairable sa sb)
    (ha : r.graph.HasShape a sa) (hb : r.graph.HasShape b sb) :
    Shapes (contract axes a b) r (axes.outShape sa sb) := by
  refine shapes_push (by simp [ha.1, hb.1]) ?_
  rw [List.map_cons, List.map_singleton, ha.2, hb.2]
  exact ContractionAxes.resultShape_eq_ok.mpr ⟨hPairable, rfl⟩

/-- The shape of a broadcast does not follow from that of its operand, it is given with it. -/
theorem shapes_broadcast {dims : List Nat} (hStretches : sa.Stretches dims s)
    (ha : r.graph.HasShape a sa) : Shapes (pushShaped (.broadcast dims) [a] s) r s := by
  have hFits : Operation.Fits (.broadcast dims) ([a].map r.graph.shape) s := by
    rw [List.map_singleton, ha.2]
    exact .broadcast hStretches
  apply (ensures_pushShaped (by simpa using ha.1) hFits).imp_extends
  rintro v r' - ⟨-, hGet⟩
  exact Graph.hasShape_of_get? hGet

theorem shapes_reshape (hSize : sa.size = s.size) (ha : r.graph.HasShape a sa) :
    Shapes (reshape a s) r s := by
  apply (ensures_reshape ha.1 (ha.2 ▸ hSize)).imp_extends
  rintro v r' - ⟨-, hGet⟩
  exact Graph.hasShape_of_get? hGet

end Recording

/-! ## Tangents of operations -/

namespace Forward

open Recording Differentiating

/-- A tangent that is there has the shape. -/
def Shaped (g : Graph) (s : Shape) (tangent : Option ValueId) : Prop :=
  ∀ t ∈ tangent, g.HasShape t s

theorem Shaped.extend {g g' : Graph} {s : Shape} {tangent : Option ValueId}
    (h : Shaped g s tangent) (hExtends : g.Extends g') : Shaped g' s tangent :=
  fun t ht => (h t ht).extend hExtends

/-- The action yields a tangent of the shape, or none. -/
def ShapesTangent (m : Recording (Option ValueId)) (r : Recorder) (s : Shape) : Prop :=
  Ensures m r fun t r' => r.Extends r' ∧ Shaped r'.graph s t

variable {r : Recorder} {a b out : ValueId} {s sa sb : Shape} {ta tb : Option ValueId}
  {f : ValueId → Recording ValueId}

theorem shapesTangent_pure (h : Shaped r.graph s ta) : ShapesTangent (pure ta) r s :=
  ⟨Recorder.Extends.refl r, h⟩

theorem shapesTangent_some {m : Recording ValueId} (h : Shapes m r s) :
    ShapesTangent (some <$> m) r s := by
  apply ensures_map
  apply Ensures.imp_extends h
  rintro v r' - hv t ⟨⟩
  exact hv

theorem shapesTangent_through (h : Shaped r.graph sa ta)
    (hOne : ∀ t, r.graph.HasShape t sa → Shapes (f t) r s) : ShapesTangent (through ta f) r s := by
  cases ta with
  | none => exact shapesTangent_pure fun t ht => absurd ht (by simp)
  | some t => exact shapesTangent_some (hOne t (h t rfl))

theorem shapesTangent_add (ha : Shaped r.graph s ta) (hb : Shaped r.graph s tb) :
    ShapesTangent (add ta tb) r s := by
  cases ta with
  | none => cases tb <;> exact shapesTangent_pure hb
  | some a =>
    cases tb with
    | none => exact shapesTangent_pure ha
    | some b =>
      exact shapesTangent_some
        (shapes_arith_left .add (ha a rfl) (hb b rfl) (Shape.Below.refl s))

theorem shapesTangent_sub (ha : Shaped r.graph s ta) (hb : Shaped r.graph s tb) :
    ShapesTangent (sub ta tb) r s := by
  cases tb with
  | none => cases ta <;> exact shapesTangent_pure ha
  | some b =>
    cases ta with
    | none => exact shapesTangent_some (shapes_neg (hb b rfl))
    | some a =>
      exact shapesTangent_some
        (shapes_arith_left .sub (ha a rfl) (hb b rfl) (Shape.Below.refl s))

theorem shapesTangent_accumulate (ha : Shaped r.graph s ta) (hb : Shaped r.graph s tb) :
    ShapesTangent (accumulate ta tb) r s := by
  cases ta with
  | none => cases tb <;> exact shapesTangent_pure hb
  | some a =>
    cases tb with
    | none => exact shapesTangent_pure ha
    | some b =>
      exact shapesTangent_some (shapes_elementwise (combines_accumulate plainReading) (ha a rfl)
        (hb b rfl) (Shape.broadcast_of_below_left (Shape.Below.refl s)))

/-- Two parts of a tangent, each from one operand, and what joins them. -/
theorem shapesTangent_both {left right : Recording (Option ValueId)}
    {join : Option ValueId → Option ValueId → Recording (Option ValueId)}
    (hLeft : ShapesTangent left r s)
    (hRight : ∀ r', r.Extends r' → ShapesTangent right r' s)
    (hJoin : ∀ {r' ta tb}, Shaped r'.graph s ta → Shaped r'.graph s tb →
      ShapesTangent (join ta tb) r' s) :
    ShapesTangent (do join (← left) (← right)) r s := by
  apply Ensures.bind_extends hLeft
  intro ta r₁ hExtends₁ ha
  apply Ensures.bind_extends (hRight r₁ hExtends₁)
  intro tb r₂ hExtends₂ hb
  exact hJoin (ha.extend hExtends₂.graph) hb

/-- The tangent of a named function: everything on the way has one shape. -/
theorem shapes_callTangent (f : NamedFunction) {t : ValueId} (ha : r.graph.HasShape a s)
    (hOut : r.graph.HasShape out s) (ht : r.graph.HasShape t s) :
    Shapes (callTangent f a out t) r s := by
  have hSame := Shape.Below.refl s
  -- The slope is recorded first, if it is not there already, and then multiplied with the tangent.
  cases f with
  | relu =>
    apply (shapes_positive ha).bind
    intro slope r₁ hExtends hSlope
    exact shapes_arith_left .mul hSlope (ht.extend hExtends.graph) hSame
  | exp => exact shapes_arith_left .mul hOut ht hSame
  | log => exact shapes_arith_left .div ht ha hSame
  | sin =>
    apply (shapes_call .cos ha).bind
    intro slope r₁ hExtends hSlope
    exact shapes_arith_left .mul hSlope (ht.extend hExtends.graph) hSame
  | cos =>
    apply (shapes_call .sin ha).bind
    intro slope r₁ hExtends hSlope
    apply (shapes_arith_left .mul hSlope (ht.extend hExtends.graph) hSame).bind
    intro product r₂ _ hProduct
    exact shapes_neg hProduct
  | tanh =>
    apply (shapes_arithRight .pow 2 hOut).bind
    intro square r₁ hExtends₁ hSquare
    apply (shapes_arithLeft .sub 1 hSquare).bind
    intro slope r₂ hExtends₂ hSlope
    exact shapes_arith_left .mul hSlope (ht.extend (hExtends₁.graph.trans hExtends₂.graph)) hSame
  | sqrt =>
    apply (shapes_arithLeft .mul 2 hOut).bind
    intro double r₁ hExtends hDouble
    exact shapes_arith_left .div (ht.extend hExtends.graph) hDouble hSame

/-- Whether the operation adds up its operands. -/
def IsSum (op : Operation) : Prop := op = .arith .add ∨ op = .arith .sub ∨ op = .accumulate

/-- The tangent of elementwise arithmetic. Products are stretched where they are made; only sums
need that their tangents have the shape of the result. -/
theorem shapesTangent_arithTangent (op : Arith) (ha : r.graph.HasShape a sa)
    (hb : r.graph.HasShape b sb) (hOut : r.graph.HasShape out s) (h : sa.broadcast sb = .ok s)
    (hConstant : (r.graph.literal? b).isSome = true → sb = []) (hta : Shaped r.graph sa ta)
    (htb : Shaped r.graph sb tb)
    (hSum : IsSum (.arith op) → (ta ≠ none → sa = s) ∧ (tb ≠ none → sb = s)) :
    ShapesTangent (arithTangent op a b out ta tb) r s := by
  obtain ⟨haBelow, hbBelow⟩ := Shape.below_of_broadcast h
  -- The tangents of full summands have the shape of the sum.
  have hFull : IsSum (.arith op) → Shaped r.graph s ta ∧ Shaped r.graph s tb := by
    intro hOp
    obtain ⟨hLeft, hRight⟩ := hSum hOp
    refine ⟨?_, ?_⟩
    · rintro t rfl
      exact hLeft (by simp) ▸ hta t rfl
    · rintro t rfl
      exact hRight (by simp) ▸ htb t rfl
  cases op with
  | add =>
    obtain ⟨hLeft, hRight⟩ := hFull (Or.inl rfl)
    exact shapesTangent_add hLeft hRight
  | sub =>
    obtain ⟨hLeft, hRight⟩ := hFull (Or.inr (Or.inl rfl))
    exact shapesTangent_sub hLeft hRight
  | mul =>
    -- Each product is stretched to the shape of the result.
    refine shapesTangent_both (shapesTangent_through hta fun t ht => shapes_arith .mul ht hb h) ?_
      shapesTangent_add
    intro r₁ hExtends
    exact shapesTangent_through (htb.extend hExtends.graph) fun t ht =>
      shapes_arith .mul (ha.extend hExtends.graph) ht h
  | div =>
    refine shapesTangent_both (shapesTangent_through hta fun t ht => shapes_arith .div ht hb h) ?_
      shapesTangent_sub
    intro r₁ hExtends
    refine shapesTangent_through (htb.extend hExtends.graph) fun t ht => ?_
    apply (shapes_arith .mul (ha.extend hExtends.graph) ht h).bind
    intro product r₂ hExtends₂ hProduct
    apply (shapes_arithRight .pow 2 (hb.extend (hExtends.graph.trans hExtends₂.graph))).bind
    intro square r₃ hExtends₃ hSquare
    exact shapes_arith_left .div (hProduct.extend hExtends₃.graph) hSquare hbBelow
  | pow =>
    refine shapesTangent_both (shapesTangent_through hta fun t ht => ?_) ?_ shapesTangent_add
    · apply (shapes_powerSlope ha hb h hConstant).bind
      intro slope r₁ hExtends hSlope
      exact shapes_arith_left .mul hSlope (ht.extend hExtends.graph) haBelow
    · intro r₁ hExtends
      refine shapesTangent_through (htb.extend hExtends.graph) fun t ht => ?_
      apply (shapes_call .log (ha.extend hExtends.graph)).bind
      intro log r₂ hExtends₂ hLog
      have hGraph := hExtends.graph.trans hExtends₂.graph
      apply (shapes_arith_left .mul (hOut.extend hGraph) hLog haBelow).bind
      intro slope r₃ hExtends₃ hSlope
      exact shapes_arith_left .mul hSlope (ht.extend (hExtends₂.graph.trans hExtends₃.graph))
        hbBelow

end Forward

/-! ## Tangents of a trace -/

/-- The value is one of the sources or computed from one. -/
inductive Graph.DependsOn (g : Graph) (sources : List ValueId) : ValueId → Prop
  | source {v : ValueId} (h : v ∈ sources) : DependsOn g sources v
  | operand {v w : ValueId} (h : DependsOn g sources w) (hw : w ∈ g.operands v) :
    DependsOn g sources v

/-- Summands that depend on the sources have the shape of their sum. -/
def Graph.FullSummands (g : Graph) (sources : List ValueId) : Prop :=
  ∀ ⦃v op operands s⦄, g.get? v = some ⟨.op op operands, s⟩ → Forward.IsSum op →
    ∀ w ∈ operands, g.DependsOn sources w → g.shape w = s

namespace Forward

open Recording Differentiating

variable {g : Graph} {wrt : List ValueId} {d : Derivatives} {r : Recorder}

/-- The tangents that are there have the shapes of their primals, which depend on the chosen
arguments. -/
structure Carries (g : Graph) (wrt : List ValueId) (d : Derivatives) (r : Recorder) : Prop where
  graph : g.Extends r.graph
  shape : ∀ v, Shaped r.graph (g.shape v) (d v)
  depends : ∀ v, d v ≠ none → g.DependsOn wrt v

theorem Carries.extend {r' : Recorder} (h : Carries g wrt d r)
    (hExtends : r.graph.Extends r'.graph) : Carries g wrt d r' :=
  ⟨h.graph.trans hExtends, fun v => (h.shape v).extend hExtends, h.depends⟩

/-- One more tangent. -/
theorem Carries.set {v t : ValueId} (h : Carries g wrt d r) (ht : r.graph.HasShape t (g.shape v))
    (hDepends : g.DependsOn wrt v) : Carries g wrt (d.set v t) r := by
  refine ⟨h.graph, ?_, ?_⟩
  · intro w
    unfold Derivatives.set
    split
    · rename_i hEq
      rintro u ⟨⟩
      exact hEq ▸ ht
    · exact h.shape w
  · intro w hSome
    unfold Derivatives.set at hSome
    split at hSome
    · rename_i hEq
      exact hEq ▸ hDepends
    · exact h.depends w hSome

/-- **The tangent of an operation has the shape of its result.** -/
theorem shaped_tangentOf (hg : g.WellFormed) (hFull : g.FullSummands wrt) {v : ValueId}
    {op : Operation} {operands : List ValueId} {s : Shape}
    (hGet : g.get? v = some ⟨.op op operands, s⟩) (hRule : ∀ name, op ≠ .foreign name)
    (h : Carries g wrt d r) :
    Yields (tangentOf op operands v s d) r fun t r' =>
      r.Extends r' ∧ Shaped r'.graph s t ∧ (t ≠ none → g.DependsOn wrt v) := by
  have hFits := hg.fits hGet
  have hv := Graph.lt_size_of_get? hGet
  have hLt : ∀ w ∈ operands, w < g.size := fun w hw => Nat.lt_trans (hg.before hGet w hw) hv
  have hHas : ∀ w ∈ operands, r.graph.HasShape w (g.shape w) := fun w hw =>
    Graph.HasShape.extend ⟨hLt w hw, rfl⟩ h.graph
  have hOut : r.graph.HasShape v s := (Graph.hasShape_of_get? hGet).extend h.graph
  have hConstant : ∀ w ∈ operands, (r.graph.literal? w).isSome = true → g.shape w = [] := by
    intro w hw hSome
    rw [h.graph.literal?_eq (hLt w hw)] at hSome
    obtain ⟨x, hx⟩ := Option.isSome_iff_exists.mp hSome
    exact hg.literal_shape (Graph.literal?_eq_some hx)
  -- Only sums hand on tangents without stretching them; their summands are full.
  have hSummand : IsSum op → ∀ w ∈ operands, d w ≠ none → g.shape w = s := fun hSum w hw hSome =>
    hFull hGet hSum w hw (h.depends w hSome)
  unfold tangentOf
  simp only
  split
  · exact yields_pure ⟨Recorder.Extends.refl r, fun t ht => absurd ht (by simp), by simp⟩
  · rename_i hSome
    -- An operand has a tangent, so the result depends on a chosen argument as well.
    have hDepends : g.DependsOn wrt v := by
      obtain ⟨w, hw, hTangent⟩ : ∃ w ∈ operands, d w ≠ none := by
        simpa using hSome
      refine .operand (h.depends w hTangent) ?_
      rwa [Graph.operands_of_op? (Graph.op?_of_get? hGet)]
    have hYields : ∀ {m : Recording (Option ValueId)}, ShapesTangent m r s →
        Yields (liftM m) r fun t r' =>
          r.Extends r' ∧ Shaped r'.graph s t ∧ (t ≠ none → g.DependsOn wrt v) := by
      intro m hm
      apply yields_lift
      apply Ensures.imp hm
      rintro t r' ⟨hExtends, hShaped⟩
      exact ⟨hExtends, hShaped, fun _ => hDepends⟩
    generalize hShapes : operands.map g.shape = shapes at hFits
    cases hFits with
    | arith hBroadcast =>
      obtain ⟨a, b, rfl, rfl, rfl⟩ := eq_pair_of_map hShapes
      refine hYields (shapesTangent_arithTangent _ (hHas a (by simp)) (hHas b (by simp)) hOut
        hBroadcast (hConstant b (by simp)) (h.shape a) (h.shape b) ?_)
      intro hSum
      exact ⟨hSummand hSum a (by simp), hSummand hSum b (by simp)⟩
    | accumulate hBroadcast =>
      obtain ⟨a, b, rfl, rfl, rfl⟩ := eq_pair_of_map hShapes
      have hSum : ∀ w ∈ [a, b], Shaped r.graph s (d w) := by
        intro w hw t ht
        have hShape := hSummand (Or.inr (Or.inr rfl)) w hw (by rw [ht]; simp)
        exact hShape ▸ h.shape w t ht
      exact hYields (shapesTangent_accumulate (hSum a (by simp)) (hSum b (by simp)))
    | neg =>
      obtain ⟨a, rfl, rfl⟩ := eq_singleton_of_map hShapes
      exact hYields (shapesTangent_through (h.shape a) fun t ht => shapes_neg ht)
    | @call f =>
      obtain ⟨a, rfl, rfl⟩ := eq_singleton_of_map hShapes
      exact hYields (shapesTangent_through (h.shape a) fun t ht =>
        shapes_callTangent f (hHas a (by simp)) hOut ht)
    | indicator =>
      exact yields_pure ⟨Recorder.Extends.refl r, fun t ht => absurd ht (by simp), by simp⟩
    | contract hPairable =>
      obtain ⟨a, b, rfl, rfl, rfl⟩ := eq_pair_of_map hShapes
      refine hYields (shapesTangent_both (shapesTangent_through (h.shape a) fun t ht =>
        shapes_contract hPairable ht (hHas b (by simp))) ?_ shapesTangent_add)
      intro r₁ hExtends
      exact shapesTangent_through ((h.shape b).extend hExtends.graph) fun t ht =>
        shapes_contract hPairable ((hHas a (by simp)).extend hExtends.graph) ht
    | reduceSum hAxes hNodup =>
      obtain ⟨a, rfl, rfl⟩ := eq_singleton_of_map hShapes
      exact hYields (shapesTangent_through (h.shape a) fun t ht =>
        shapes_push_one ht (sumShape_eq_ok.mpr ⟨⟨hAxes, hNodup⟩, rfl⟩))
    | broadcast hStretches =>
      obtain ⟨a, rfl, rfl⟩ := eq_singleton_of_map hShapes
      exact hYields (shapesTangent_through (h.shape a) fun t ht => shapes_broadcast hStretches ht)
    | transpose hLength hAxes hNodup =>
      obtain ⟨a, rfl, rfl⟩ := eq_singleton_of_map hShapes
      exact hYields (shapesTangent_through (h.shape a) fun t ht =>
        shapes_push_one ht (transposeShape_eq_ok.mpr ⟨⟨hLength, hAxes, hNodup⟩, rfl⟩))
    | reshape hSize =>
      obtain ⟨a, rfl, rfl⟩ := eq_singleton_of_map hShapes
      exact hYields (shapesTangent_through (h.shape a) fun t ht => shapes_reshape hSize ht)
    | cast =>
      obtain ⟨a, rfl, rfl⟩ := eq_singleton_of_map hShapes
      exact hYields (shapesTangent_through (h.shape a) fun t ht => shapes_push_one ht rfl)
    | foreign => exact absurd rfl (hRule _)

/-- Once the seeds are there, they are the only tangents. -/
theorem Seeded.carries {r' : Recorder} {seeds : List ValueId} (hGraph : r.graph = g)
    (h : Seeded r r' wrt seeds d) : Carries g wrt d r' := by
  subst hGraph
  -- What has a tangent now is a chosen argument, and its tangent is its seed.
  have hMem : ∀ v, d v ≠ none → v ∈ wrt := by
    intro v hSome
    by_contra hNot
    exact hSome (h.none_eq v hNot)
  refine ⟨h.recorder.graph, ?_, fun v hSome => .source (hMem v hSome)⟩
  intro v t ht
  obtain ⟨seed, hZip⟩ := h.fresh.exists_seed (hMem v (by rw [ht]; simp))
  obtain rfl := Option.some.inj ((h.seed_eq _ hZip).symm.trans ht)
  exact Graph.hasShape_of_get? (h.fresh.leaf _ hZip)

/-- One value is passed. -/
theorem shaped_carryTangent (hg : g.WellFormed) (hRules : g.HasRules) (hFull : g.FullSummands wrt)
    (h : Carries g wrt d r) (v : ValueId) :
    Yields (carryTangent g d v) r fun d' r' => r.Extends r' ∧ Carries g wrt d' r' := by
  unfold carryTangent
  cases hOp : g.op? v with
  | none => exact yields_pure ⟨Recorder.Extends.refl r, h⟩
  | some made =>
    obtain ⟨op, operands⟩ := made
    apply Yields.bind (shaped_tangentOf hg hFull (Graph.op?_eq_some hOp)
      (fun name hEq => hRules v name operands (hEq ▸ hOp)) h)
    rintro t r₁ ⟨hExtends, hShaped, hDepends⟩
    cases t with
    | none => exact yields_pure ⟨hExtends, h.extend hExtends.graph⟩
    | some t =>
      apply Yields.bind (yields_lift (ensures_tag .tangent v t))
      rintro ⟨⟩ r₂ ⟨hExtends', -⟩
      have hAll := hExtends.trans hExtends'
      exact yields_pure ⟨hAll, (h.extend hAll.graph).set
        ((hShaped t rfl).extend hExtends'.graph) (hDepends (by simp))⟩

/-- A tangent of an output has the shape of the output, or is the constant zero. -/
def Fits (g g' : Graph) (o t : ValueId) : Prop :=
  g'.HasShape t (g.shape o) ∨ g'.get? t = some ⟨.literal 0, []⟩

theorem Fits.extend {g' g'' : Graph} {o t : ValueId} (h : Fits g g' o t)
    (hExtends : g'.Extends g'') : Fits g g'' o t :=
  h.imp (·.extend hExtends) hExtends.get?_of_some

theorem Fits.lt {g' : Graph} {o t : ValueId} (h : Fits g g' o t) : t < g'.size :=
  h.elim (·.1) Graph.lt_size_of_get?

theorem fits_outputTangent (h : Carries g wrt d r) (o : ValueId) :
    Ensures (outputTangent d o) r fun t r' => r.Extends r' ∧ Fits g r'.graph o t := by
  apply Ensures.imp (ensures_knownOrZero .tangent o (d o))
  rintro t r' ⟨hExtends, hKnown | ⟨-, hZero⟩⟩
  · exact ⟨hExtends, Or.inl ((h.shape o t hKnown).extend hExtends.graph)⟩
  · exact ⟨hExtends, Or.inr hZero⟩

/-- What the recording of a forward differentiation leaves behind. -/
theorem shaped_recordForward (hg : g.WellFormed) (hRules : g.HasRules)
    (hFull : g.FullSummands wrt) (hGraph : r.graph = g) (hNodup : wrt.Nodup)
    (hWrt : ∀ a ∈ wrt, a < g.size) (outputs : List ValueId) :
    Yields (recordForward g wrt outputs) r fun result r' => ∃ seeds ts, result = outputs ++ ts ∧
      r.Extends r' (seedArguments seeds) ∧ seeds.Nodup ∧
      List.Forall₂ (Fits g r'.graph) outputs ts := by
  unfold recordForward
  apply Yields.bind (yields_lift (ensures_seedTangents hNodup fun a ha => by
    rw [hGraph]
    exact hWrt a ha))
  rintro d r₁ ⟨seeds, hSeeded⟩
  -- Every value that is passed keeps the tangents in shape.
  have hLoop : Yields (g.ids.foldlM (carryTangent g) d) r₁ fun d' r' =>
      r₁.Extends r' ∧ Carries g wrt d' r' := by
    apply Yields.foldlM fun _ d' r' => r₁.Extends r' ∧ Carries g wrt d' r'
    · exact ⟨Recorder.Extends.refl _, hSeeded.carries hGraph⟩
    · rintro before v after d' r₂ - ⟨hExtends, hCarries⟩
      apply Yields.imp (shaped_carryTangent hg hRules hFull hCarries v)
      rintro d'' r₃ ⟨hExtends', hCarries'⟩
      exact ⟨hExtends.trans hExtends', hCarries'⟩
  apply Yields.bind hLoop
  rintro d' r₂ ⟨hExtends₂, hCarries⟩
  -- The outputs are tagged one after the other, which leaves the tangents as they are.
  have hOutputs : Ensures (outputTangents d' outputs) r₂ fun ts r' =>
      r₂.Extends r' ∧ List.Forall₂ (Fits g r'.graph) outputs ts := by
    apply ensures_mapM_forall₂ (R := Fits g) Fits.extend
    intro o _ r₃ hExtends
    exact fits_outputTangent (hCarries.extend hExtends.graph) o
  apply Yields.bind (yields_lift hOutputs)
  rintro ts r₃ ⟨hExtends₃, hTangents⟩
  apply yields_pure
  have hExtends := (hSeeded.recorder.trans hExtends₂).trans hExtends₃
  exact ⟨seeds, ts, rfl, by simpa using hExtends, hSeeded.fresh.nodup, hTangents⟩

end Forward

namespace Trace

variable {t : Trace} {positions : List Nat}

/-- **A forward differentiation keeps traces valid**, if summands that depend on a chosen argument
have the shape of their sum. For an imported trace of operations that have rules, and for any valid
positions, there is a derivative. It extends the trace: the graph, the arguments and the tags of
the trace stand in front, and the bindings are the same. Its outputs are those of the trace and a
tangent for each, which is the constant zero or has the shape of the output. It passes every check
of an import, and if its numbers can be written in a document, it is imported from both of its
texts. -/
theorem jvp_importable (hTrace : ∃ text, ofText text = .ok t) (hRules : t.graph.HasRules)
    (hPositions : ∀ p ∈ positions, p < t.arguments.length)
    (hFull : ∀ wrt, selectArguments t positions = .ok wrt → t.graph.FullSummands wrt) :
    ∃ d tangents, t.differentiate .jvp positions = .ok d ∧
      t.graph.Extends d.graph ∧ t.arguments <+: d.arguments ∧ t.tags <+: d.tags ∧
      d.bindings = t.bindings ∧ d.outputs = t.outputs ++ tangents ∧
      List.Forall₂ (fun o w => d.graph.literal? w = some 0 ∨ d.graph.shape w = t.graph.shape o)
        t.outputs tangents ∧
      ofDraft d.toDraft = .ok d ∧
      (d.Sized → (∀ v x, d.graph.literal? v = some x → ExactInDocument x) →
        ofText d.prettyText = .ok d ∧ ofText d.compactText = .ok d) := by
  obtain ⟨text, hText⟩ := hTrace
  have hImportable := importable_of_ofText hText
  have h := hImportable.wellFormed
  obtain ⟨wrt, hSelect, hSelects⟩ := t.exists_selectArguments h hPositions
  obtain ⟨result, r, hRun, seeds, tangents, rfl, hExtends, hNodup, hTangents⟩ :=
    (Forward.shaped_recordForward h.graph hRules (hFull wrt hSelect)
      (show t.recorder.graph = t.graph from rfl) hSelects.nodup
      (fun a ha => Graph.lt_size_of_get? (hSelects.leaf h ha)) t.outputs).exists_run
  have hLt : ∀ o ∈ t.outputs ++ tangents, o < r.graph.size := by
    intro o ho
    rcases List.mem_append.mp ho with ho | ho
    · exact Nat.lt_of_lt_of_le (h.output_lt o ho) hExtends.graph.size_le
    · obtain ⟨o', -, hFits⟩ := exists_beside_of_forall₂ hTangents ho
      exact hFits.lt
  let d : Trace := ⟨t.name, r.graph, r.arguments, r.bindings, r.tags, t.outputs ++ tangents⟩
  have hDerivative : t.differentiate .jvp positions = .ok d := by
    rw [differentiate_jvp hSelect]
    exact extend_eq_ok h hRun hExtends (by simp [h.outputs_ne_nil]) hLt
  -- What was added is described once more, with its tags.
  obtain ⟨seeds', tangents', carried, hDerives⟩ := derivesForward h hSelect hDerivative
  obtain rfl : seeds = seeds' := seedArguments_injective
    (List.append_cancel_left (hExtends.arguments.symm.trans hDerives.recorder.arguments))
  have hDerived : d.Importable := hImportable.of_derives hDerives.recorder
    (hExtends.wellFormed h.graph) hNodup (by simp [d, h.outputs_ne_nil]) hLt
  refine ⟨d, tangents, hDerivative, hExtends.graph, ⟨_, hExtends.arguments.symm⟩, ?_,
    hExtends.bindings, rfl, ?_, ofDraft_toDraft hDerived, hDerived.ofText_eq_ok⟩
  · obtain ⟨more, hMore⟩ := exists_addTags_eq t.tags (tagsOf .tangent wrt seeds ++
      (carried ++ tagsOf .tangent t.outputs tangents'))
    have hTags : d.tags = _ := hDerives.recorder.tags.trans hMore
    exact ⟨more, hTags.symm⟩
  · apply hTangents.imp
    rintro o w (hShape | hZero)
    · exact Or.inr hShape.2
    · left
      show r.graph.literal? w = some 0
      rw [Graph.literal?, hZero]
      rfl

/-- The sum of a vector and a number, which is not stretched before, and its total. -/
def shiftedTotal : Trace where
  name := "f"
  graph := ⟨#[⟨.leaf, [3]⟩, ⟨.leaf, []⟩, ⟨.op (.arith .add) [0, 1], [3]⟩,
    ⟨.op (.reduceSum [0]) [2], []⟩]⟩
  arguments := [⟨0, some "x", false⟩, ⟨1, some "y", false⟩]
  bindings := []
  tags := []
  outputs := [3]

theorem shiftedTotal_imported : ∃ text, ofText text = .ok shiftedTotal :=
  exists_text_of_ofDraft (by decide) (by decide) (by decide) (by decide)

theorem shiftedTotal_hasRules : shiftedTotal.graph.HasRules := by
  intro v name operands hOp
  match v with
  | 0 | 1 | 2 | 3 | _ + 4 =>
    exact absurd hOp (by simp [Graph.op?, Graph.get?, shiftedTotal, Value.op?])

/-- The total is differentiated with respect to the vector, which has the shape of the sum. -/
theorem jvp_importable_shiftedTotal :
    ∃ d tangent, shiftedTotal.differentiate .jvp [0] = .ok d ∧ d.outputs = [3, tangent] ∧
      ofDraft d.toDraft = .ok d := by
  have hFull : shiftedTotal.graph.FullSummands [0] := by
    intro v op operands s hGet hSum w hw hDepends
    match v with
    | 0 | 1 | _ + 4 => exact absurd hGet (by simp [Graph.get?, shiftedTotal])
    | 2 =>
      obtain ⟨⟨rfl, rfl⟩, rfl⟩ : (.arith .add = op ∧ [0, 1] = operands) ∧ [3] = s := by
        simpa [Graph.get?, shiftedTotal] using hGet
      obtain rfl | rfl : w = 0 ∨ w = 1 := by simpa using hw
      · rfl
      -- The number does not depend on the vector.
      · cases hDepends with
        | source h => exact absurd h (by decide)
        | operand _ hw => exact absurd hw List.not_mem_nil
    | 3 =>
      obtain ⟨⟨rfl, -⟩, -⟩ : (.reduceSum [0] = op ∧ [2] = operands) ∧ [] = s := by
        simpa [Graph.get?, shiftedTotal] using hGet
      exact absurd hSum (by simp [Forward.IsSum])
  obtain ⟨d, tangents, hDerivative, -, -, -, -, hOutputs, hShapes, hImport, -⟩ :=
    jvp_importable shiftedTotal_imported shiftedTotal_hasRules
      (show ∀ p ∈ [0], p < shiftedTotal.arguments.length by decide) fun wrt hSelect => by
        have hZero : selectArguments shiftedTotal [0] = .ok [0] := by decide
        obtain rfl : wrt = [0] := Except.ok.inj (hSelect.symm.trans hZero)
        exact hFull
  obtain ⟨tangent, rfl⟩ := List.length_eq_one_iff.mp hShapes.length_eq.symm
  exact ⟨d, tangent, hDerivative, hOutputs, hImport⟩

/-- **An imported trace with a smaller summand has no tangent** with respect to that summand. The
tangent of the sum is a number, which has no axis to be summed over. -/
theorem jvp_fails_on_small_summand :
    (∃ text, ofText text = .ok shiftedTotal) ∧ shiftedTotal.graph.HasRules ∧
      selectArguments shiftedTotal [1] = .ok [1] ∧
      shiftedTotal.differentiate .jvp [1] =
        .error (.recording (.shape (.axisOutOfRange "reduce_sum" 0 0))) :=
  ⟨shiftedTotal_imported, shiftedTotal_hasRules, by decide, by decide⟩

end Trace

end ArrayEquations
