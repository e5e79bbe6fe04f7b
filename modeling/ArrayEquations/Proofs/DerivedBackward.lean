import ArrayEquations.Proofs.DerivedRecorder

/-!
# ArrayEquations — what a reverse differentiation adds

The derived trace has the values, arguments and bindings of its trace, and more of them. Its
outputs are cotangents. A cotangent is mostly a new value; but where a gradient leaves out a
product with its seed, the other factor stands for the product, and this may be a value of the
trace. It is then a value that an output is computed from.

## Main definitions

* `Graph.LeadsTo` — an output is computed from the value.
* `Trace.DerivesBackward` — what a reverse differentiation makes of a trace.

## Main results

* `Reverse.leaves_contributions` — where the contributions of an operation come from.
* `Trace.derivesBackward` — every reverse derivative and every gradient of a trace is such.
-/

namespace ArrayEquations

open Recording Differentiating

/-- The value is one of the outputs or an operand on the way to one. -/
inductive Graph.LeadsTo (g : Graph) (outputs : List ValueId) : ValueId → Prop
  | output {o : ValueId} (h : o ∈ outputs) : LeadsTo g outputs o
  | operand {v w : ValueId} (h : LeadsTo g outputs v) (hw : w ∈ g.operands v) :
    LeadsTo g outputs w

namespace Reverse

variable {x : Reverse} {r : Recorder} {sources : List ValueId} {a b out ct v : ValueId}

/-! ## Contributions -/

/-- A product with the seed is its other factor. -/
theorem makes_times (ha : a < r.graph.size) (hb : b < r.graph.size) :
    Makes [a, b] (x.times a b) r := by
  -- Asking adds nothing, and whatever the answer is, no factor comes from elsewhere.
  have hAsk : ∀ {v : ValueId} {f : Bool → Recording ValueId},
      (∀ answer, Makes [a, b] (f answer) r) → Makes [a, b] (x.isUnit v >>= f) r := fun h => h _
  unfold times
  apply hAsk
  intro isLeft
  split
  · exact makes_pure hb (by simp)
  · apply hAsk
    intro isRight
    split
    · exact makes_pure ha (by simp)
    · exact (makes_arith .mul ha hb).of_new

theorem makes_callContribution (f : NamedFunction) (ha : a < r.graph.size)
    (hOut : out < r.graph.size) (hCt : ct < r.graph.size) :
    Makes [ct, out] (x.callContribution f a out ct) r := by
  cases f with
  | relu =>
    apply (makes_positive ha).of_new.bind
    intro slope r₁ hDerives hSlope
    exact (makes_times hSlope (hDerives.lt hCt)).mono (by simp)
  -- The slope of an exponential is its own result, which is there already.
  | exp => exact makes_times hCt hOut
  | log => exact (makes_arith .div hCt ha).of_new
  | sin =>
    apply (makes_call .cos ha).of_new.bind
    intro slope r₁ hDerives hSlope
    exact (makes_times (hDerives.lt hCt) hSlope).mono (by simp)
  | cos =>
    apply (makes_call .sin ha).of_new.bind
    intro slope r₁ hDerives hSlope
    apply Makes.bind ((makes_times (hDerives.lt hCt) hSlope).mono (by simp))
    intro product r₂ _ hProduct
    exact (makes_neg hProduct).of_new
  | tanh =>
    apply (makes_arithRight .pow hOut 2).of_new.bind
    intro square r₁ hDerives₁ hSquare
    apply (makes_arithLeft .sub 1 hSquare).of_new.bind
    intro slope r₂ hDerives₂ hSlope
    exact (makes_times (hDerives₂.lt (hDerives₁.lt hCt)) hSlope).mono (by simp)
  | sqrt =>
    apply (makes_arithLeft .mul 2 hOut).of_new.bind
    intro double r₁ hDerives hDouble
    exact (makes_arith .div (hDerives.lt hCt) hDouble).of_new

theorem makes_lhsContribution (op : Arith) (ha : a < r.graph.size) (hb : b < r.graph.size)
    (hCt : ct < r.graph.size) : Makes [ct, b] (x.lhsContribution op a b ct) r := by
  cases op with
  | add => exact makes_pure hCt (by simp)
  | sub => exact makes_pure hCt (by simp)
  | mul => exact makes_times hCt hb
  | div => exact (makes_arith .div hCt hb).of_new
  | pow =>
    apply (makes_powerSlope ha hb).of_new.bind
    intro slope r₁ hDerives hSlope
    exact (makes_times (hDerives.lt hCt) hSlope).mono (by simp)

theorem makes_rhsContribution (op : Arith) (ha : a < r.graph.size) (hb : b < r.graph.size)
    (hOut : out < r.graph.size) (hCt : ct < r.graph.size) :
    Makes [ct, a] (x.rhsContribution op a b out ct) r := by
  cases op with
  -- A sum hands the cotangent on, and records nothing.
  | add => exact makes_pure hCt (by simp)
  | sub => exact (makes_neg hCt).of_new
  | mul => exact (makes_times ha hCt).mono (by simp)
  | div =>
    apply (makes_times hCt ha).bind
    intro product r₁ hDerives₁ hProduct
    apply (makes_arithRight .pow (hDerives₁.lt hb) 2).of_new.bind
    intro square r₂ hDerives₂ hSquare
    apply (makes_arith .div (hDerives₂.lt hProduct) hSquare).of_new.bind
    intro quotient r₃ _ hQuotient
    exact (makes_neg hQuotient).of_new
  | pow =>
    apply (makes_call .log ha).of_new.bind
    intro log r₁ hDerives₁ hLog
    apply (makes_arith .mul (hDerives₁.lt hOut) hLog).of_new.bind
    intro slope r₂ hDerives₂ hSlope
    exact (makes_times (hDerives₂.lt (hDerives₁.lt hCt)) hSlope).mono (by simp)

theorem makes_sumOver (axes : List Nat) (hv : v < r.graph.size) : Makes [v] (sumOver v axes) r := by
  unfold sumOver
  split
  · exact makes_pure hv (by simp)
  · exact (makes_sum hv axes).of_new

theorem makes_arrange (order : List Nat) (hv : v < r.graph.size) :
    Makes [v] (arrange v order) r := by
  unfold arrange
  split
  · exact makes_pure hv (by simp)
  · exact (makes_transpose hv _).of_new

theorem makes_unbroadcast (target : Shape) (hv : v < r.graph.size) :
    Makes [v] (unbroadcast v target) r := by
  unfold unbroadcast
  apply ensures_shapeOf_bind
  split
  · exact makes_pure hv (by simp)
  · apply (makes_sumOver _ hv).bind
    intro summed r₁ _ hSummed
    apply ensures_shapeOf_bind
    split
    · exact makes_pure hSummed (by simp)
    · split
      · exact (makes_reshape hSummed target).of_new
      · exact (makes_broadcastTo hSummed target).of_new

theorem makes_broadcastContribution (operand : Shape) (dims : List Nat) (target : Shape)
    (hCt : ct < r.graph.size) :
    Makes [ct] (broadcastContribution operand dims target ct) r := by
  unfold broadcastContribution
  apply (makes_sumOver _ hCt).bind
  intro summed r₁ _ hSummed
  apply ensures_shapeOf_bind
  split
  · exact makes_pure hSummed (by simp)
  · exact (makes_reshape hSummed operand).of_new

theorem makes_contractLhs (axes : ContractionAxes) (lhsRank rhsRank : Nat)
    (hb : b < r.graph.size) (hCt : ct < r.graph.size) :
    Makes [] (contractLhs axes lhsRank rhsRank b ct) r := by
  apply (makes_contract _ hCt hb).bind
  intro product r₁ _ hProduct
  exact makes_arrange _ hProduct

theorem makes_contractRhs (axes : ContractionAxes) (lhsRank rhsRank : Nat)
    (ha : a < r.graph.size) (hCt : ct < r.graph.size) :
    Makes [] (contractRhs axes lhsRank rhsRank a ct) r := by
  apply (makes_contract _ ha hCt).bind
  intro product r₁ _ hProduct
  exact makes_arrange _ hProduct

/-- Contributions to some of the operands, each of them a new value or a source. -/
def Offered (operands sources : List ValueId) (r : Recorder) (given : List (ValueId × ValueId))
    (r' : Recorder) : Prop :=
  ∀ y ∈ given, y.1 ∈ operands ∧ y.2 < r'.graph.size ∧ (r.graph.size ≤ y.2 ∨ y.2 ∈ sources)

/-- The action adds values and yields contributions. -/
def Offers (operands sources : List ValueId) (m : Recording (List (ValueId × ValueId)))
    (r : Recorder) : Prop :=
  Ensures m r fun given r' => r.Derives r' ∧ Offered operands sources r given r'

theorem offered_nil {operands : List ValueId} {r' : Recorder} :
    Offered operands sources r [] r' :=
  fun _ hy => absurd hy List.not_mem_nil

theorem offers_emit {operands : List ValueId} {contribution : Recording ValueId}
    (hOperand : a ∈ operands) (h : Makes sources contribution r) :
    Offers operands sources (x.emit a contribution) r := by
  have hFitted : Makes sources (do unbroadcast (← contribution) (x.graph.shape a)) r := by
    apply h.bind
    intro c r₁ _ hc
    exact (makes_unbroadcast _ hc).mono (by simp)
  unfold emit
  split
  · apply Ensures.imp (ensures_map (g := fun c => [(a, c)]) (Q := fun given r' =>
      r.Derives r' ∧ Offered operands sources r given r') (Ensures.imp hFitted ?_)) fun _ _ => id
    rintro c r' ⟨hDerives, hc, hSource⟩
    refine ⟨hDerives, ?_⟩
    intro y hy
    obtain rfl := List.mem_singleton.mp hy
    exact ⟨hOperand, hc, hSource⟩
  · exact ensures_pure ⟨Recorder.Derives.refl r, offered_nil⟩

/-- **A contribution to an operand is new, or it is the cotangent, the result or an operand.** -/
theorem leaves_contributions {op : Operation} {operands : List ValueId}
    (hSlots : ∀ slot ∈ op.slots, operands.getD slot 0 ∈ operands)
    (hOperands : ∀ w ∈ operands, w < r.graph.size) (hOut : out < r.graph.size)
    (hCt : ct < r.graph.size) :
    Leaves (x.contributions op operands out ct) r fun given r' =>
      r.Derives r' ∧ Offered operands (ct :: out :: operands) r given r' := by
  have hOne : ∀ {m : Recording (List (ValueId × ValueId))},
      Offers operands (ct :: out :: operands) m r →
      Leaves (liftM m : Differentiating _) r fun given r' =>
        r.Derives r' ∧ Offered operands (ct :: out :: operands) r given r' := leaves_lift
  -- An operation with two operands gives to one after the other.
  have hTwo : ∀ {m m' : Recording (List (ValueId × ValueId))},
      Offers operands (ct :: out :: operands) m r →
      (∀ r', r.Derives r' → Offers operands (ct :: out :: operands) m' r') →
      Leaves (do
        let given ← m
        let given' ← m'
        return given ++ given' : Differentiating (List (ValueId × ValueId))) r fun given r' =>
          r.Derives r' ∧ Offered operands (ct :: out :: operands) r given r' := by
    intro m m' hm hm'
    refine (hOne hm).bind ?_
    rintro given r₁ ⟨hDerives₁, hGiven⟩
    refine (leaves_lift (hm' r₁ hDerives₁)).bind ?_
    rintro given' r₂ ⟨hDerives₂, hGiven'⟩
    refine leaves_pure ⟨hDerives₁.trans_plain hDerives₂, ?_⟩
    intro y hy
    rcases List.mem_append.mp hy with hy | hy
    · obtain ⟨hTarget, hLt, hSource⟩ := hGiven y hy
      exact ⟨hTarget, hDerives₂.lt hLt, hSource⟩
    · obtain ⟨hTarget, hLt, hSource⟩ := hGiven' y hy
      exact ⟨hTarget, hLt, hSource.imp_left (Nat.le_trans hDerives₁.graph.size_le)⟩
  have hFirst : 0 ∈ op.slots → operands.getD 0 0 ∈ operands := hSlots 0
  have hSecond : 1 ∈ op.slots → operands.getD 1 0 ∈ operands := hSlots 1
  cases op with
  | arith op =>
    have ha := hFirst (by simp [Operation.slots])
    have hb := hSecond (by simp [Operation.slots])
    apply hTwo (offers_emit ha ((makes_lhsContribution op (hOperands _ ha) (hOperands _ hb)
      hCt).mono (by simpa using Or.inr (Or.inr hb))))
    intro r₁ hDerives
    exact offers_emit hb ((makes_rhsContribution op (hDerives.lt (hOperands _ ha))
      (hDerives.lt (hOperands _ hb)) (hDerives.lt hOut) (hDerives.lt hCt)).mono
      (by simpa using Or.inr (Or.inr ha)))
  | accumulate =>
    apply hTwo (offers_emit (hFirst (by simp [Operation.slots])) (makes_pure hCt (by simp)))
    intro r₁ hDerives
    exact offers_emit (hSecond (by simp [Operation.slots])) (makes_pure (hDerives.lt hCt) (by simp))
  | neg =>
    exact hOne (offers_emit (hFirst (by simp [Operation.slots])) (makes_neg hCt).of_new)
  | call f =>
    have ha := hFirst (by simp [Operation.slots])
    exact hOne (offers_emit ha ((makes_callContribution f (hOperands _ ha) hOut hCt).mono
      (by simp)))
  | indicator c => exact leaves_pure ⟨Recorder.Derives.refl r, offered_nil⟩
  | cast dtype =>
    exact hOne (offers_emit (hFirst (by simp [Operation.slots])) (makes_pure hCt (by simp)))
  | reshape =>
    exact hOne (offers_emit (hFirst (by simp [Operation.slots])) (makes_reshape hCt _).of_new)
  | transpose permutation =>
    exact hOne (offers_emit (hFirst (by simp [Operation.slots])) (makes_transpose hCt _).of_new)
  | broadcast dims =>
    exact hOne (offers_emit (hFirst (by simp [Operation.slots]))
      ((makes_broadcastContribution _ dims _ hCt).mono (by simp)))
  | reduceSum axes =>
    exact hOne (offers_emit (hFirst (by simp [Operation.slots]))
      (makes_pushShaped (by simp) (by simpa using hCt) (by simp)).of_new)
  | contract axes =>
    have ha := hFirst (by simp [Operation.slots])
    have hb := hSecond (by simp [Operation.slots])
    apply hTwo (offers_emit ha (makes_contractLhs axes _ _ (hOperands _ hb) hCt).of_new)
    intro r₁ hDerives
    exact offers_emit hb
      (makes_contractRhs axes _ _ (hDerives.lt (hOperands _ ha)) (hDerives.lt hCt)).of_new
  | foreign name => exact leaves_throw (.noRule name)

/-! ## The way back -/

/-- The values with a cotangent lead to an output. Their cotangents are new, or lead to an output
too. -/
def Tracked (g : Graph) (outputs : List ValueId) (d : Derivatives) (r : Recorder) : Prop :=
  ∀ v w, d v = some w →
    g.LeadsTo outputs v ∧ w < r.graph.size ∧ (g.size ≤ w ∨ g.LeadsTo outputs w)

variable {g : Graph} {outputs : List ValueId} {d : Derivatives}

theorem tracked_none : Tracked g outputs Derivatives.none r :=
  fun _ _ hd => absurd hd (by simp [Derivatives.none])

theorem Tracked.extend {r' : Recorder} {seeds : List ValueId} {tagged : List DerivativeTag}
    (h : Tracked g outputs d r) (hDerives : r.Derives r' seeds tagged) :
    Tracked g outputs d r' := by
  intro v w hd
  obtain ⟨hv, hw, hSource⟩ := h v w hd
  exact ⟨hv, hDerives.lt hw, hSource⟩

theorem Tracked.set (h : Tracked g outputs d r) {v w : ValueId} (hv : g.LeadsTo outputs v)
    (hw : w < r.graph.size) (hSource : g.size ≤ w ∨ g.LeadsTo outputs w) :
    Tracked g outputs (d.set v w) r := by
  intro u w' hd
  unfold Derivatives.set at hd
  split at hd
  · rename_i hEq
    obtain rfl := Option.some.inj hd
    exact ⟨hEq ▸ hv, hw, hSource⟩
  · exact h u w' hd

theorem tracked_accumulate (hSize : g.size ≤ r.graph.size) (h : Tracked g outputs d r)
    (hv : g.LeadsTo outputs v) {c : ValueId} (hc : c < r.graph.size)
    (hSource : g.size ≤ c ∨ g.LeadsTo outputs c) :
    Ensures (accumulate d v c) r fun d' r' => r.Derives r' ∧ Tracked g outputs d' r' := by
  unfold accumulate
  cases hd : d v with
  | none => exact ensures_pure ⟨Recorder.Derives.refl r, h.set hv hc hSource⟩
  | some before =>
    obtain ⟨-, hBefore, -⟩ := h v before hd
    apply Ensures.bind (makes_elementwise hBefore hc (by simp))
    rintro sum r₁ ⟨hDerives, hSum, hNew⟩
    -- A sum of cotangents is a value of its own, whatever its summands are.
    have hNew := hNew.resolve_right List.not_mem_nil
    exact ⟨hDerives, (h.extend hDerives).set hv hSum (Or.inl (Nat.le_trans hSize hNew))⟩

theorem tracked_accumulateAll (hSize : g.size ≤ r.graph.size) (h : Tracked g outputs d r)
    {given : List (ValueId × ValueId)} (hGiven : ∀ y ∈ given, g.LeadsTo outputs y.1 ∧
      y.2 < r.graph.size ∧ (g.size ≤ y.2 ∨ g.LeadsTo outputs y.2)) :
    Ensures (accumulateAll d given) r fun d' r' => r.Derives r' ∧ Tracked g outputs d' r' := by
  unfold accumulateAll
  induction given generalizing d r with
  | nil => exact ensures_pure ⟨Recorder.Derives.refl r, h⟩
  | cons y given ih =>
    rw [List.foldlM_cons]
    obtain ⟨hTarget, hLt, hSource⟩ := hGiven y List.mem_cons_self
    apply Ensures.bind (tracked_accumulate hSize h hTarget hLt hSource)
    rintro d' r₁ ⟨hDerives, h'⟩
    apply Ensures.imp (ih (Nat.le_trans hSize hDerives.graph.size_le) h' ?_)
    · rintro d'' r₂ ⟨hDerives', h''⟩
      exact ⟨hDerives.trans_plain hDerives', h''⟩
    · intro z hz
      obtain ⟨hTarget, hLt, hSource⟩ := hGiven z (List.mem_cons_of_mem y hz)
      exact ⟨hTarget, hDerives.lt hLt, hSource⟩

/-- The tags of the way back: cotangents of bound values that are operations. They are new, or
lead to an output. -/
def Carried (g : Graph) (outputs bound : List ValueId) (tagged : List DerivativeTag) : Prop :=
  ∀ t ∈ tagged, t.kind = .cotangent ∧ t.primal ∈ bound ∧ g.op? t.primal ≠ none ∧
    (g.size ≤ t.value ∨ g.LeadsTo outputs t.value)

/-- One step back keeps what is known of the cotangents. -/
theorem leaves_carryBack (hg : x.graph.WellFormed) (hSize : x.graph.size ≤ r.graph.size)
    (bound : List ValueId) (h : Tracked x.graph outputs d r) (v : ValueId) :
    Leaves (x.carryBack bound d v) r fun d' r' => ∃ tagged, r.Derives r' [] tagged ∧
      Tracked x.graph outputs d' r' ∧ Carried x.graph outputs bound tagged := by
  have hNothing : Carried x.graph outputs bound [] := fun t ht => absurd ht List.not_mem_nil
  unfold carryBack
  cases hd : d v with
  | none => exact leaves_pure ⟨[], Recorder.Derives.refl r, h, hNothing⟩
  | some ct =>
    cases hOp : x.graph.op? v with
    | none => exact leaves_pure ⟨[], Recorder.Derives.refl r, h, hNothing⟩
    | some made =>
      obtain ⟨op, operands⟩ := made
      obtain ⟨hLeads, hCt, hSource⟩ := h v ct hd
      have hGet := Graph.op?_eq_some hOp
      have hv : v < r.graph.size := Nat.lt_of_lt_of_le (Graph.lt_size_of_get? hGet) hSize
      have hBefore := hg.before hGet
      have hOperand : ∀ w ∈ operands, x.graph.LeadsTo outputs w := by
        intro w hw
        exact .operand hLeads (by rwa [Graph.operands_of_op? hOp])
      -- A bound value is tagged before; what follows is the same with and without the tag.
      have hRest : ∀ {r₁ : Recorder} {tagged : List DerivativeTag}, r.Derives r₁ [] tagged →
          Carried x.graph outputs bound tagged →
          Leaves (do accumulateAll d (← x.contributions op operands v ct)) r₁ fun d' r' =>
            ∃ tagged, r.Derives r' [] tagged ∧ Tracked x.graph outputs d' r' ∧
              Carried x.graph outputs bound tagged := by
        intro r₁ tagged hDerives₁ hCarried
        refine (leaves_contributions (fun slot hSlot =>
          (Graph.getD_mem_of_mem_slots (hg.fits hGet) hSlot).1) (fun w hw => hDerives₁.lt
            (Nat.lt_trans (hBefore w hw) hv)) (hDerives₁.lt hv) (hDerives₁.lt hCt)).bind ?_
        rintro given r₂ ⟨hDerives₂, hGiven⟩
        have hSize₁ := Nat.le_trans hSize hDerives₁.graph.size_le
        apply leaves_lift
        apply (tracked_accumulateAll (Nat.le_trans hSize₁ hDerives₂.graph.size_le)
          ((h.extend hDerives₁).extend hDerives₂) ?_).imp
        · rintro d' r₃ ⟨hDerives₃, h'⟩
          refine ⟨tagged, ?_, h', hCarried⟩
          have hAll := hDerives₁.trans (hDerives₂.trans_plain hDerives₃)
          rwa [List.append_nil, List.append_nil] at hAll
        · -- A contribution is new, or one of the values that were at hand.
          intro y hy
          obtain ⟨hTarget, hLt, hFrom⟩ := hGiven y hy
          refine ⟨hOperand y.1 hTarget, hLt, ?_⟩
          rcases hFrom with hNew | hMem
          · exact Or.inl (Nat.le_trans hSize₁ hNew)
          · rcases List.mem_cons.mp hMem with hEq | hMem
            · exact hEq ▸ hSource
            · rcases List.mem_cons.mp hMem with hEq | hMem
              · exact Or.inr (hEq ▸ hLeads)
              · exact Or.inr (hOperand y.2 hMem)
      simp only
      split
      · rename_i hBound
        refine (leaves_lift (derives_tag .cotangent hv hCt)).bind ?_
        rintro ⟨⟩ r₁ hTag
        apply hRest hTag
        intro t ht
        obtain rfl := List.mem_singleton.mp ht
        exact ⟨rfl, List.contains_iff_mem.mp hBound, by simp [hOp], hSource⟩
      · exact hRest (Recorder.Derives.refl r) hNothing

/-- The way back through the whole graph. -/
theorem leaves_wayBack (hg : x.graph.WellFormed) (hSize : x.graph.size ≤ r.graph.size)
    (bound : List ValueId) (h : Tracked x.graph outputs d r) :
    Leaves (x.graph.ids.reverse.foldlM (x.carryBack bound) d) r fun d' r' => ∃ tagged,
      r.Derives r' [] tagged ∧ Tracked x.graph outputs d' r' ∧
        Carried x.graph outputs bound tagged := by
  refine Leaves.foldlM ⟨[], Recorder.Derives.refl r, h, fun t ht => absurd ht List.not_mem_nil⟩ ?_
  rintro v - d₁ r₁ ⟨tagged, hDerives, h₁, hCarried⟩
  refine (leaves_carryBack hg (Nat.le_trans hSize hDerives.graph.size_le) bound h₁ v).imp ?_
  rintro d₂ r₂ ⟨tagged', hDerives', h₂, hCarried'⟩
  refine ⟨tagged ++ tagged', hDerives.trans hDerives', h₂, ?_⟩
  intro t ht
  rcases List.mem_append.mp ht with ht | ht
  · exact hCarried t ht
  · exact hCarried' t ht

/-! ## Seeds and outputs -/

/-- The seed of an output is a value at hand that counts as its cotangent. -/
private theorem tracked_seed (hSize : g.size ≤ r.graph.size) (h : Tracked g outputs d r)
    {o seed : ValueId} (ho : o ∈ outputs) (hSeed : seed < r.graph.size) (hNew : g.size ≤ seed)
    (depends : Bool) :
    Ensures (if depends then accumulate d o seed else return d) r fun d' r' =>
      r.Derives r' ∧ Tracked g outputs d' r' := by
  cases depends with
  | true => exact tracked_accumulate hSize h (.output ho) hSeed (Or.inl hNew)
  | false => exact ensures_pure ⟨Recorder.Derives.refl r, h⟩

/-- Without a unit every output gets a seed of its own. -/
theorem ensures_inputSeeds (hUnit : x.unit = none) (hSize : g.size ≤ r.graph.size)
    (hLt : ∀ o ∈ outputs, o < r.graph.size) :
    Ensures (x.seedOutputs outputs) r fun d r' => ∃ seeds, seeds.length = outputs.length ∧
      seeds.Nodup ∧ r.Derives r' seeds (tagsOf .cotangent outputs seeds) ∧
      Tracked g outputs d r' := by
  unfold seedOutputs
  apply Ensures.foldlM fun before d r' => ∃ seeds, seeds.length = before.length ∧
    seeds.Nodup ∧ r.Derives r' seeds (tagsOf .cotangent before seeds) ∧ Tracked g outputs d r'
  · exact ⟨[], rfl, List.nodup_nil, Recorder.Derives.refl r, tracked_none⟩
  · rintro before o after d r₁ hSplit ⟨seeds, hLength, hNodup, hDerives, hTracked⟩
    have hMem : o ∈ outputs := by simp [hSplit]
    have hSize₁ := Nat.le_trans hSize hDerives.graph.size_le
    unfold seedOutput
    rw [hUnit]
    apply Ensures.bind (derives_derivativeInput .cotangent (hDerives.lt (hLt o hMem)))
    rintro seed r₂ ⟨hSeed, hNew, hLeaf⟩
    apply (tracked_seed (Nat.le_trans hSize₁ hSeed.graph.size_le) (hTracked.extend hSeed) hMem
      (Graph.lt_size_of_isLeaf hLeaf) (Nat.le_trans hSize₁ hNew) _).imp
    rintro d' r₃ ⟨hAdded, hTracked'⟩
    refine ⟨seeds ++ [seed], by simp [hLength], ?_, ?_, hTracked'⟩
    · rw [List.nodup_append]
      refine ⟨hNodup, List.nodup_singleton _, ?_⟩
      rintro s hs s' hs' rfl
      -- A seed of before is a value of before, and this one is new.
      obtain rfl := List.mem_singleton.mp hs'
      exact absurd (Graph.lt_size_of_isLeaf (hDerives.seed s hs).2) (Nat.not_lt.mpr hNew)
    · rw [tagsOf_append hLength.symm]
      have hAll := hDerives.trans (hSeed.trans hAdded)
      rwa [List.append_nil, List.append_nil] at hAll

/-- With a unit all outputs have it as their seed. -/
theorem ensures_unitSeeds {unit : ValueId} (hUnit : x.unit = some unit)
    (hSize : g.size ≤ r.graph.size) (hLt : ∀ o ∈ outputs, o < r.graph.size)
    (hSeed : unit < r.graph.size) (hNew : g.size ≤ unit) :
    Ensures (x.seedOutputs outputs) r fun d r' =>
      r.Derives r' [] (tagsOf .cotangent outputs (outputs.map fun _ => unit)) ∧
      Tracked g outputs d r' := by
  unfold seedOutputs
  -- All outputs share the one seed, so only tags are added, one for each output that was passed.
  apply Ensures.foldlM fun before d r' =>
    r.Derives r' [] (tagsOf .cotangent before (before.map fun _ => unit)) ∧
      Tracked g outputs d r'
  · exact ⟨Recorder.Derives.refl r, tracked_none⟩
  · rintro before o after d r₁ hSplit ⟨hDerives, hTracked⟩
    have hMem : o ∈ outputs := by simp [hSplit]
    have hSize₁ := Nat.le_trans hSize hDerives.graph.size_le
    unfold seedOutput
    rw [hUnit]
    apply Ensures.bind (derives_tag .cotangent (hDerives.lt (hLt o hMem)) (hDerives.lt hSeed))
    rintro ⟨⟩ r₂ hTag
    apply (tracked_seed (Nat.le_trans hSize₁ hTag.graph.size_le) (hTracked.extend hTag) hMem
      (hTag.lt (hDerives.lt hSeed)) hNew _).imp
    rintro d' r₃ ⟨hAdded, hTracked'⟩
    refine ⟨?_, hTracked'⟩
    rw [List.map_append, tagsOf_append (by simp)]
    have hAll := hDerives.trans (hTag.trans hAdded)
    rwa [List.append_nil] at hAll

/-- The cotangents of the arguments, with their tags. -/
theorem ensures_outputs (hSize : g.size ≤ r.graph.size) (h : Tracked g outputs d r)
    {wrt : List ValueId} (hLt : ∀ a ∈ wrt, a < r.graph.size) :
    Ensures (argumentCotangents d wrt) r fun ws r' => ws.length = wrt.length ∧
      r.Derives r' [] (tagsOf .cotangent wrt ws) ∧
      ∀ w ∈ ws, g.size ≤ w ∨ g.LeadsTo outputs w := by
  apply derives_each
  intro a ha r₁ tagged hDerives
  have hSize₁ := Nat.le_trans hSize hDerives.graph.size_le
  apply derives_known .cotangent (fun w hw => Or.inl (Nat.le_trans hSize₁ hw))
    (hDerives.lt (hLt a ha))
  intro w hw
  obtain ⟨-, hwLt, hSource⟩ := h.extend hDerives a w hw
  exact ⟨hwLt, hSource⟩

end Reverse

/-! ## The derived trace -/

/-- What a reverse differentiation makes of a trace. The starts are the cotangents of its outputs:
seeds, which are inputs, or the constant of a gradient. Bound values on the way back get a tag
with their cotangents, and so do the chosen arguments, whose cotangents are the outputs. -/
structure Trace.DerivesBackward (t d : Trace) (wrt seeds starts : List ValueId)
    (carried : List DerivativeTag) : Prop where
  recorder : t.recorder.Derives d.recorder seeds
    (tagsOf .cotangent t.outputs starts ++ (carried ++ tagsOf .cotangent wrt d.outputs))
  name : d.name = t.name
  starts_length : starts.length = t.outputs.length
  starts : starts = seeds ∧ seeds.Nodup ∨
    seeds = [] ∧ ∀ s ∈ starts, (d.graph.literal? s).isSome = true
  carried : Reverse.Carried t.graph t.outputs (t.bindings.map (·.value)) carried
  outputs_length : d.outputs.length = wrt.length
  outputs : ∀ w ∈ d.outputs, t.graph.size ≤ w ∨ t.graph.LeadsTo t.outputs w

open Reverse in
/-- What comes after the starts: the way back, and the cotangents of the arguments. -/
private theorem leaves_backward {g : Graph} (hg : g.WellFormed) {r : Recorder}
    (hGraph : g.Extends r.graph) (unit : Option ValueId) (bound : List ValueId)
    {wrt outputs : List ValueId} (hWrt : ∀ a ∈ wrt, a < g.size) {d : Derivatives}
    (h : Tracked g outputs d r) :
    Leaves (do
      let cotangents ← g.ids.reverse.foldlM
        ((⟨g, unit, dependents g wrt⟩ : Reverse).carryBack bound) d
      argumentCotangents cotangents wrt) r fun ws r' => ∃ carried,
        r.Derives r' [] (carried ++ tagsOf .cotangent wrt ws) ∧ Carried g outputs bound carried ∧
        ws.length = wrt.length ∧ ∀ w ∈ ws, g.size ≤ w ∨ g.LeadsTo outputs w := by
  refine (leaves_wayBack (x := ⟨g, unit, dependents g wrt⟩) hg hGraph.size_le bound h).bind ?_
  rintro d' r₁ ⟨carried, hDerives, h', hCarried⟩
  have hSize := Nat.le_trans hGraph.size_le hDerives.graph.size_le
  apply leaves_lift
  apply (ensures_outputs hSize h' fun a ha => Nat.lt_of_lt_of_le (hWrt a ha) hSize).imp
  rintro ws r₂ ⟨hLength, hOutputs, hSource⟩
  exact ⟨carried, hDerives.trans hOutputs, hCarried, hLength, hSource⟩

open Reverse in
/-- What a reverse differentiation ends with. -/
private theorem leaves_recordReverse {t : Trace} (h : t.WellFormed) {wrt : List ValueId}
    (hWrt : ∀ a ∈ wrt, a < t.graph.size) (gradient : Bool) :
    Leaves (recordReverse t.graph (t.bindings.map (·.value)) wrt t.outputs gradient) t.recorder
      fun ws r => ∃ seeds starts carried,
        t.recorder.Derives r seeds
          (tagsOf .cotangent t.outputs starts ++ (carried ++ tagsOf .cotangent wrt ws)) ∧
        starts.length = t.outputs.length ∧
        (starts = seeds ∧ seeds.Nodup ∨
          seeds = [] ∧ ∀ s ∈ starts, (r.graph.literal? s).isSome = true) ∧
        Carried t.graph t.outputs (t.bindings.map (·.value)) carried ∧
        ws.length = wrt.length ∧
        ∀ w ∈ ws, t.graph.size ≤ w ∨ t.graph.LeadsTo t.outputs w := by
  unfold recordReverse
  cases gradient with
  | false =>
    -- No unit: each output has an input of its own as its seed.
    have hNoUnit : Ensures (pure none : Recording (Option ValueId)) t.recorder fun unit r =>
        unit = none ∧ r = t.recorder := ensures_pure ⟨rfl, rfl⟩
    refine (leaves_lift hNoUnit).bind ?_
    rintro unit r₀ ⟨rfl, rfl⟩
    refine (leaves_lift (ensures_inputSeeds rfl (Nat.le_refl t.graph.size) h.output_lt)).bind ?_
    rintro d r₁ ⟨seeds, hLength, hNodup, hSeeds, hTracked⟩
    refine (leaves_backward h.graph hSeeds.graph none _ hWrt hTracked).imp ?_
    rintro ws r₂ ⟨carried, hDerives, hCarried, hWs, hSource⟩
    refine ⟨seeds, seeds, carried, ?_, hLength, Or.inl ⟨rfl, hNodup⟩, hCarried, hWs, hSource⟩
    have hAll := hSeeds.trans hDerives
    rwa [List.append_nil] at hAll
  | true =>
    -- The unit is the constant one, which is the cotangent of all outputs.
    have hOne : Ensures (some <$> literal 1) t.recorder fun unit r => ∃ u, unit = some u ∧
        t.recorder.Derives r ∧ t.graph.size ≤ u ∧ r.graph.get? u = some ⟨.literal 1, []⟩ := by
      apply ensures_map
      obtain ⟨-, hu, hGet⟩ := @ensures_literal t.recorder 1
      obtain ⟨hDerives, -⟩ : Makes [] (literal 1) t.recorder := makes_literal 1
      exact ⟨_, rfl, hDerives, hu.ge, hGet⟩
    refine (leaves_lift hOne).bind ?_
    rintro unit r₀ ⟨u, rfl, hUnit, hNew, hGet⟩
    refine (leaves_lift (ensures_unitSeeds rfl hUnit.graph.size_le
      (fun o ho => hUnit.lt (h.output_lt o ho)) (Graph.lt_size_of_get? hGet) hNew)).bind ?_
    rintro d r₁ ⟨hSeeds, hTracked⟩
    have hStart := hUnit.trans hSeeds
    refine (leaves_backward h.graph hStart.graph (some u) _ hWrt hTracked).imp ?_
    rintro ws r₂ ⟨carried, hDerives, hCarried, hWs, hSource⟩
    refine ⟨[], t.outputs.map fun _ => u, carried, hStart.trans hDerives, by simp,
      Or.inr ⟨rfl, ?_⟩, hCarried, hWs, hSource⟩
    intro s hs
    obtain ⟨o, -, rfl⟩ := List.mem_map.mp hs
    have hStill := hDerives.graph.get?_of_some (hSeeds.graph.get?_of_some hGet)
    rw [Graph.literal?, hStill]
    rfl

/-- **A reverse differentiation adds to a trace** its seeds and the cotangents on the way back. -/
theorem Trace.derivesBackward {t d : Trace} (h : t.WellFormed) {mode : Mode} (hMode : mode ≠ .jvp)
    {positions wrt : List Nat} (hSelect : selectArguments t positions = .ok wrt)
    (hDerivative : t.differentiate mode positions = .ok d) :
    ∃ seeds starts carried, t.DerivesBackward d wrt seeds starts carried := by
  -- A gradient and a differentiation from given seeds are the same recording, up to one flag.
  obtain ⟨gradient, hExtend⟩ : ∃ gradient, t.extend (recordReverse t.graph
      (t.bindings.map (·.value)) wrt t.outputs gradient) = .ok d := by
    cases mode with
    | jvp => exact absurd rfl hMode
    | vjp => exact ⟨false, differentiate_vjp hSelect ▸ hDerivative⟩
    | grad =>
      exact ⟨true, differentiate_grad hSelect (hasScalarOutput_of_grad hDerivative) ▸ hDerivative⟩
  obtain ⟨r, hRun, hEq⟩ := recorder_of_extend h hExtend
  have hSelects := selects_of_selectArguments h hSelect
  have hWrt : ∀ a ∈ wrt, a < t.graph.size := fun a ha =>
    Graph.lt_size_of_get? (hSelects.leaf h ha)
  obtain ⟨seeds, starts, carried, hDerives, hLength, hStarts, hCarried, hWs, hSource⟩ :=
    leaves_recordReverse h hWrt gradient d.outputs r hRun
  have hGraph : d.graph = r.graph := congrArg Trace.graph hEq
  have hName : d.name = t.name := by rw [hEq]
  have hRecorder : t.recorder.Derives d.recorder seeds
      (tagsOf .cotangent t.outputs starts ++ (carried ++ tagsOf .cotangent wrt d.outputs)) := by
    rw [hEq]
    exact { hDerives with }
  exact ⟨seeds, starts, carried, hRecorder, hName, hLength, hGraph ▸ hStarts, hCarried, hWs,
    hSource⟩

end ArrayEquations
