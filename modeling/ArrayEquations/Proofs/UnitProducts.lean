import ArrayEquations.Proofs.SparedSeed

/-!
# ArrayEquations — no product with the unit seed is recorded

The contributions of a gradient are recorded without a product that has the seed, or an
array of it, as a factor. A product with a cotangent is asked about its factors; the
factors of all others are slopes and values of the differentiated graph.

## Main results

* `Reverse.keeps_times` — the products with cotangents.
* `Reverse.keeps_contributions` — what an operation gives its operands.
* `Reverse.ensures_recordGradient` — a whole gradient.
-/

namespace ArrayEquations

namespace Reverse

open Recording

variable {unit : ValueId} {x : Reverse} {r r' : Recorder} {d : Derivatives} {a b out ct v : ValueId}

/-! ## Contributions -/

/-- **A product of a gradient is recorded for values apart from the seed only.** -/
theorem keeps_times (hUnit : x.unit = some unit) (ha : IsValue a r) (hb : IsValue b r) :
    Keeps unit (x.times a b) r IsValue := by
  -- There is a unit, and so being the unit is being made of the seed.
  have hBind : ∀ {v : ValueId} {f : Bool → Recording ValueId},
      Keeps unit (f (comesFromUnit r.graph unit r.graph.size v)) r IsValue →
        Keeps unit (x.isUnit v >>= f) r IsValue := by
    intro v f h
    have hIsUnit : x.unit.any (fun unit => comesFromUnit r.graph unit r.graph.size v) =
        comesFromUnit r.graph unit r.graph.size v := by
      rw [hUnit]
      rfl
    rw [← hIsUnit] at h
    exact h
  unfold times
  apply hBind
  split
  · exact keeps_pure hb
  · rename_i hLeft
    apply hBind
    split
    · exact keeps_pure ha
    · rename_i hRight
      apply (keeps_arith fun _ => ⟨?_, ?_⟩).imp
      · exact fun v r' h => h.isValue
      · exact Graph.apart_of_comesFromUnit ha (Bool.eq_false_iff.mpr hLeft)
      · exact Graph.apart_of_comesFromUnit hb (Bool.eq_false_iff.mpr hRight)

private theorem keeps_quotient : Keeps unit (arith .div a b) r IsValue :=
  (keeps_arith fun h => absurd h (by simp)).imp fun _ _ h => h.isValue

private theorem keeps_neg : Keeps unit (neg a) r IsValue :=
  (keeps_push (by simp)).imp fun _ _ h => h.1

private theorem keeps_call (f : NamedFunction) : Keeps unit (call f a) r (IsApart unit) :=
  (keeps_push (by simp)).imp fun _ _ h => h.2 rfl

theorem keeps_callContribution (hUnit : x.unit = some unit) (f : NamedFunction)
    (hOut : IsApart unit out r) (hCt : IsValue ct r) :
    Keeps unit (x.callContribution f a out ct) r IsValue := by
  cases f with
  | relu =>
    apply Keeps.bind keeps_positive
    intro slope r₁ hSpares hSlope
    exact keeps_times hUnit hSlope.isValue (hCt.extend hSpares)
  | exp => exact keeps_times hUnit hCt hOut.isValue
  | log => exact keeps_quotient
  | sin =>
    apply Keeps.bind (keeps_call .cos)
    intro slope r₁ hSpares hSlope
    exact keeps_times hUnit (hCt.extend hSpares) hSlope.isValue
  | cos =>
    apply Keeps.bind (keeps_call .sin)
    intro slope r₁ hSpares hSlope
    apply Keeps.bind (keeps_times hUnit (hCt.extend hSpares) hSlope.isValue)
    intro product r₂ _ _
    exact keeps_neg
  | tanh =>
    apply Keeps.bind (keeps_arithRight .pow 2 hOut)
    intro square r₁ hSpares₁ hSquare
    apply Keeps.bind (keeps_arithLeft .sub 1 hSquare)
    intro slope r₂ hSpares₂ hSlope
    exact keeps_times hUnit (hCt.extend (hSpares₁.trans hSpares₂)) hSlope.isValue
  | sqrt =>
    apply Keeps.bind (keeps_arithLeft .mul 2 hOut)
    intro double r₁ _ _
    exact keeps_quotient

theorem keeps_lhsContribution (hUnit : x.unit = some unit) (op : Arith)
    (ha : IsApart unit a r) (hb : IsApart unit b r) (hCt : IsValue ct r) :
    Keeps unit (x.lhsContribution op a b ct) r IsValue := by
  cases op with
  | add => exact keeps_pure hCt
  | sub => exact keeps_pure hCt
  | mul => exact keeps_times hUnit hCt hb.isValue
  | div => exact keeps_quotient
  | pow =>
    apply Keeps.bind (keeps_powerSlope ha hb)
    intro slope r₁ hSpares hSlope
    exact keeps_times hUnit (hCt.extend hSpares) hSlope.isValue

theorem keeps_rhsContribution (hUnit : x.unit = some unit) (op : Arith)
    (ha : IsApart unit a r) (hb : IsApart unit b r) (hOut : IsApart unit out r)
    (hCt : IsValue ct r) : Keeps unit (x.rhsContribution op a b out ct) r IsValue := by
  cases op with
  | add => exact keeps_pure hCt
  | sub => exact keeps_neg
  | mul => exact keeps_times hUnit ha.isValue hCt
  | div =>
    -- Only `times` can meet the seed. The other products have operands that are apart from it.
    apply Keeps.bind (keeps_times hUnit hCt ha.isValue)
    intro product r₁ hSpares₁ _
    apply Keeps.bind (keeps_arithRight .pow 2 (hb.extend hSpares₁))
    intro square r₂ _ _
    apply Keeps.bind keeps_quotient
    intro quotient r₃ _ _
    exact keeps_neg
  | pow =>
    apply Keeps.bind (keeps_call .log)
    intro log r₁ hSpares₁ hLog
    apply Keeps.bind (keeps_arith fun _ => ⟨hOut.extend hSpares₁, hLog⟩)
    intro slope r₂ hSpares₂ hSlope
    exact keeps_times hUnit (hCt.extend (hSpares₁.trans hSpares₂)) hSlope.isValue

private theorem keeps_sumOver (axes : List Nat) (hv : IsValue v r) :
    Keeps unit (sumOver v axes) r IsValue := by
  unfold sumOver
  split
  · exact keeps_pure hv
  · exact (keeps_push (by simp)).imp fun _ _ h => h.1

private theorem keeps_arrange (order : List Nat) (hv : IsValue v r) :
    Keeps unit (arrange v order) r IsValue := by
  unfold arrange
  split
  · exact keeps_pure hv
  · exact (keeps_push (by simp)).imp fun _ _ h => h.1

theorem keeps_unbroadcast (target : Shape) (hv : IsValue v r) :
    Keeps unit (unbroadcast v target) r IsValue := by
  unfold unbroadcast
  apply keeps_shapeOf_bind
  split
  · exact keeps_pure hv
  · apply Keeps.bind (keeps_sumOver _ hv)
    intro summed r₁ _ hSummed
    apply keeps_shapeOf_bind
    split
    · exact keeps_pure hSummed
    · split
      · exact keeps_reshape target
      · exact keeps_broadcastTo target

theorem keeps_broadcastContribution (operand : Shape) (dims : List Nat) (target : Shape)
    (hCt : IsValue ct r) :
    Keeps unit (broadcastContribution operand dims target ct) r IsValue := by
  unfold broadcastContribution
  apply Keeps.bind (keeps_sumOver _ hCt)
  intro summed r₁ _ hSummed
  apply keeps_shapeOf_bind
  split
  · exact keeps_pure hSummed
  · exact keeps_reshape operand

private theorem keeps_contract {axes : ContractionAxes} :
    Keeps unit (contract axes a b) r IsValue :=
  (keeps_push (by simp)).imp fun _ _ h => h.1

theorem keeps_contractLhs (axes : ContractionAxes) (lhsRank rhsRank : Nat) :
    Keeps unit (contractLhs axes lhsRank rhsRank b ct) r IsValue :=
  keeps_contract.bind fun _ _ _ hProduct => keeps_arrange _ hProduct

theorem keeps_contractRhs (axes : ContractionAxes) (lhsRank rhsRank : Nat) :
    Keeps unit (contractRhs axes lhsRank rhsRank a ct) r IsValue :=
  keeps_contract.bind fun _ _ _ hProduct => keeps_arrange _ hProduct

/-- All that is given are values. -/
def AreValues (given : List (ValueId × ValueId)) (r : Recorder) : Prop :=
  ∀ y ∈ given, IsValue y.2 r

theorem keeps_emit {contribution : Recording ValueId}
    (h : Keeps unit contribution r IsValue) : Keeps unit (x.emit a contribution) r AreValues := by
  unfold emit
  split
  · apply Keeps.bind h
    intro c r₁ _ hc
    apply Keeps.bind (keeps_unbroadcast _ hc)
    intro c' r₂ _ hc'
    exact keeps_pure fun y hy => List.mem_singleton.mp hy ▸ hc'
  · exact keeps_pure fun y hy => absurd hy List.not_mem_nil

/-- What an operation that was there before the seed gives its operands. -/
theorem keeps_contributions (hx : x.unit = some unit) (op : Operation)
    {operands : List ValueId} (hOperands : ∀ w ∈ operands, w < unit) {out ct : ValueId}
    (hOut : out < unit) (hCt : IsValue ct r) :
    Differentiating.Keeps unit (x.contributions op operands out ct) r AreValues := by
  have ha : operands.getD 0 0 < unit := getD_lt_of_forall_lt (Nat.zero_lt_of_lt hOut) hOperands 0
  have hb : operands.getD 1 0 < unit := getD_lt_of_forall_lt (Nat.zero_lt_of_lt hOut) hOperands 1
  -- An operation with two operands gives to one after the other.
  have hTwo : ∀ {l l' : Recording (List (ValueId × ValueId))}, Recording.Keeps unit l r AreValues →
      (∀ r', r.Spares unit r' → Recording.Keeps unit l' r' AreValues) →
      Differentiating.Keeps unit (do
        let given ← l
        let given' ← l'
        return given ++ given' : Differentiating (List (ValueId × ValueId))) r AreValues := by
    intro l l' hl hl'
    apply (Differentiating.keeps_lift hl).bind
    intro given r₁ hSpares₁ hGiven
    apply (Differentiating.keeps_lift (hl' r₁ hSpares₁)).bind
    intro given' r₂ hSpares₂ hGiven'
    apply Differentiating.keeps_pure
    intro y hy
    rcases List.mem_append.mp hy with hy | hy
    · exact (hGiven y hy).extend hSpares₂
    · exact hGiven' y hy
  apply keeps_of_unit
  intro hUnit
  have hSelf : ∀ {w : ValueId}, w < unit → IsApart unit w r := fun hw =>
    Graph.apart_of_lt (Nat.lt_trans hw hUnit) hw
  cases op with
  | arith op =>
    apply hTwo (keeps_emit (keeps_lhsContribution hx op (hSelf ha) (hSelf hb) hCt))
    intro r₁ hSpares
    exact keeps_emit (keeps_rhsContribution hx op ((hSelf ha).extend hSpares)
      ((hSelf hb).extend hSpares) ((hSelf hOut).extend hSpares) (hCt.extend hSpares))
  | accumulate =>
    apply hTwo (keeps_emit (Recording.keeps_pure hCt))
    intro r₁ hSpares
    exact keeps_emit (Recording.keeps_pure (hCt.extend hSpares))
  | neg => exact Differentiating.keeps_lift (keeps_emit keeps_neg)
  | call f =>
    exact Differentiating.keeps_lift (keeps_emit (keeps_callContribution hx f (hSelf hOut) hCt))
  | indicator c => exact Differentiating.keeps_pure fun y hy => absurd hy List.not_mem_nil
  | cast dtype => exact Differentiating.keeps_lift (keeps_emit (Recording.keeps_pure hCt))
  | reshape => exact Differentiating.keeps_lift (keeps_emit (keeps_reshape _))
  | transpose permutation =>
    exact Differentiating.keeps_lift (keeps_emit ((keeps_push (by simp)).imp fun _ _ h => h.1))
  | broadcast dims =>
    exact Differentiating.keeps_lift (keeps_emit (keeps_broadcastContribution _ _ _ hCt))
  | reduceSum axes =>
    exact Differentiating.keeps_lift (keeps_emit
      ((keeps_pushShaped fun h => absurd h (by simp)).imp fun _ _ h => h.2.2))
  | contract axes =>
    apply hTwo (keeps_emit (keeps_contractLhs axes _ _))
    intro r₁ _
    exact keeps_emit (keeps_contractRhs axes _ _)
  | foreign name => exact Differentiating.keeps_throw (.noRule name)

/-! ## The way back -/

/-- All derivative quantities are values. -/
def AllValues (d : Derivatives) (r : Recorder) : Prop := ∀ v w, d v = some w → IsValue w r

theorem AllValues.extend (h : AllValues d r) (hSpares : r.Spares unit r') : AllValues d r' :=
  fun v w hd => (h v w hd).extend hSpares

theorem AllValues.set (h : AllValues d r) {v w : ValueId} (hw : IsValue w r) :
    AllValues (d.set v w) r := by
  intro u w' hd
  unfold Derivatives.set at hd
  by_cases hEq : u = v
  · rw [if_pos hEq] at hd
    exact Option.some.inj hd ▸ hw
  · rw [if_neg hEq] at hd
    exact h u w' hd

private theorem keeps_tag (kind : DerivativeKind) (primal value : ValueId) :
    Keeps unit (tag kind primal value) r fun _ _ => True := by
  intro _
  obtain ⟨hExtends, hGraph⟩ := @ensures_tag r kind primal value
  refine ⟨⟨hExtends.graph, ?_⟩, trivial⟩
  intro v operands s hv hGet
  rw [hGraph] at hGet
  exact absurd (Graph.lt_size_of_get? hGet) (Nat.not_lt.mpr hv)

theorem keeps_accumulate (h : AllValues d r) (target : ValueId) {c : ValueId}
    (hc : IsValue c r) : Keeps unit (accumulate d target c) r AllValues := by
  unfold accumulate
  cases d target with
  | none => exact keeps_pure (h.set hc)
  | some before =>
    apply Keeps.bind (keeps_elementwise rfl fun h => absurd h (by simp))
    intro sum r₁ hSpares hSum
    exact keeps_pure ((h.extend hSpares).set hSum.isValue)

theorem keeps_accumulateAll (h : AllValues d r) {given : List (ValueId × ValueId)}
    (hGiven : AreValues given r) : Keeps unit (accumulateAll d given) r AllValues := by
  unfold accumulateAll
  induction given generalizing d r with
  | nil => exact keeps_pure h
  | cons y given ih =>
    rw [List.foldlM_cons]
    apply Keeps.bind (keeps_accumulate h y.1 (hGiven y List.mem_cons_self))
    intro d' r₁ hSpares h'
    exact ih h' fun z hz => (hGiven z (List.mem_cons_of_mem y hz)).extend hSpares

theorem keeps_carryBack (hx : x.unit = some unit) (hg : x.graph.WellFormed)
    (hSize : x.graph.size ≤ unit) (bound : List ValueId) (h : AllValues d r) (v : ValueId) :
    Differentiating.Keeps unit (x.carryBack bound d v) r AllValues := by
  unfold carryBack
  cases hd : d v with
  | none => exact Differentiating.keeps_pure h
  | some ct =>
    cases hOp : x.graph.op? v with
    | none => exact Differentiating.keeps_pure h
    | some made =>
      obtain ⟨op, operands⟩ := made
      have hGet := Graph.op?_eq_some hOp
      have hv : v < unit := Nat.lt_of_lt_of_le (Graph.lt_size_of_get? hGet) hSize
      have hOperands : ∀ w ∈ operands, w < unit := fun w hw =>
        Nat.lt_trans (hg.before hGet w hw) hv
      -- What comes behind the tag is the same with the tag and without it.
      have hRest : ∀ {r₁ : Recorder}, r.Spares unit r₁ → Differentiating.Keeps unit (do
          accumulateAll d (← x.contributions op operands v ct)) r₁ AllValues := by
        intro r₁ hSpares
        apply (keeps_contributions hx op hOperands hv ((h v ct hd).extend hSpares)).bind
        intro given r₂ hSpares₂ hGiven
        exact Differentiating.keeps_lift
          (keeps_accumulateAll (h.extend (hSpares.trans hSpares₂)) hGiven)
      simp only
      split
      · apply (Differentiating.keeps_lift (keeps_tag .cotangent v ct)).bind
        intro _ r₁ hSpares _
        exact hRest hSpares
      · exact hRest (.refl unit r)

theorem keeps_argumentCotangents (wrt : List ValueId) :
    Keeps unit (argumentCotangents d wrt) r fun _ _ => True := by
  -- For each argument a name is recorded, and a zero if nothing has reached it.
  have hOne : ∀ (a : ValueId) (r : Recorder),
      Keeps unit (argumentCotangent d a) r fun _ _ => True := by
    intro a r
    have hTagged : ∀ (w : ValueId) (r : Recorder),
        Keeps unit (do tag .cotangent a w; return w) r fun _ _ => True := fun w r =>
      (keeps_tag .cotangent a w).bind fun _ _ _ _ => keeps_pure trivial
    unfold argumentCotangent
    cases d a with
    | some w => exact hTagged w r
    | none => exact (keeps_literal 0).bind fun w r₁ _ _ => hTagged w r₁
  unfold argumentCotangents
  induction wrt generalizing r with
  | nil => exact keeps_pure trivial
  | cons a wrt ih =>
    rw [List.mapM_cons]
    apply Keeps.bind (hOne a r)
    intro w r₁ _ _
    apply Keeps.bind ih
    intro ws r₂ _ _
    exact keeps_pure trivial

theorem keeps_seedOutput (hx : x.unit = some unit) (h : AllValues d r) (o : ValueId) :
    Keeps unit (x.seedOutput d o) r AllValues := by
  apply keeps_of_unit
  intro hUnit
  unfold seedOutput
  rw [hx]
  apply Keeps.bind (keeps_tag .cotangent o unit)
  intro _ r₁ hSpares _
  split
  · exact keeps_accumulate (h.extend hSpares) o (hUnit.extend hSpares)
  · exact keeps_pure (h.extend hSpares)

theorem keeps_seedOutputs (hx : x.unit = some unit) (outputs : List ValueId) :
    Keeps unit (x.seedOutputs outputs) r AllValues := by
  unfold seedOutputs
  have hNone : AllValues Derivatives.none r := fun v w hd => absurd hd (by simp [Derivatives.none])
  generalize Derivatives.none = d at hNone
  induction outputs generalizing d r with
  | nil => exact keeps_pure hNone
  | cons o outputs ih =>
    rw [List.foldlM_cons]
    apply Keeps.bind (keeps_seedOutput hx hNone o)
    intro d' r₁ _ h'
    exact ih d' h'

/-- **A gradient records no product with its seed.** -/
theorem ensures_recordGradient {g : Graph} (hg : g.WellFormed) (hGraph : r.graph = g)
    (bound wrt outputs : List ValueId) :
    Ensures (recordReverse g bound wrt outputs true).run r fun _ r' =>
      ∀ v operands s, g.size ≤ v → r'.graph.get? v = some ⟨.op (.arith .mul) operands, s⟩ →
        ∀ w ∈ operands, r'.graph.Apart g.size w := by
  subst hGraph
  obtain ⟨hExtends, -, hGet⟩ := @ensures_literal r 1
  let r₁ : Recorder := (literal 1 r).2
  let x : Reverse := ⟨r.graph, some r.graph.size, dependents r.graph wrt⟩
  have hRest : Differentiating.Keeps r.graph.size (do
      let seeds ← x.seedOutputs outputs
      let cotangents ← x.graph.ids.reverse.foldlM (x.carryBack bound) seeds
      argumentCotangents cotangents wrt) r₁ fun _ _ => True := by
    apply (Differentiating.keeps_lift (keeps_seedOutputs rfl outputs)).bind
    intro seeds r₂ _ hSeeds
    have hLoop : Differentiating.Keeps r.graph.size
        (x.graph.ids.reverse.foldlM (x.carryBack bound) seeds) r₂ AllValues :=
      Differentiating.Keeps.foldlM hSeeds fun v _ d r' h =>
        keeps_carryBack (x := x) rfl hg (Nat.le_refl _) bound h v
    apply hLoop.bind
    intro cotangents r₃ _ _
    exact Differentiating.keeps_lift (keeps_argumentCotangents wrt)
  obtain ⟨hSpares, -⟩ := hRest (Graph.lt_size_of_get? hGet)
  intro v operands s hv hProduct w hw
  -- The seed is the first id behind the graph, and it is a literal rather than a product.
  have hNe : v ≠ r.graph.size := by
    rintro rfl
    have hSeed := hSpares.graph.get?_of_some hGet
    exact absurd (hSeed.symm.trans hProduct) (by simp)
  have hAfter : r₁.graph.size ≤ v := by
    rw [show r₁.graph.size = r.graph.size + 1 from Graph.size_push ..]
    exact Nat.lt_of_le_of_ne hv (Ne.symm hNe)
  exact hSpares.product v operands s hAfter hProduct w hw

end Reverse

end ArrayEquations
