import ArrayEquations.Proofs.ContractedAxes
import ArrayEquations.Proofs.FormulaSteps
import ArrayEquations.Proofs.SumTrees
import ArrayEquations.Proofs.SummedAxes

/-!
# ArrayEquations — built formulas

The formula of a value says what the value is: read at an assignment, it is the value's
entry at the position of its axes. Operands stand before the operations that use them, so
the proof is an induction on the fuel, with one case for each rule.

An accumulation is written as the sum of all contributions that were accumulated, which
may be nested and may have different shapes.

## Main definitions

* `Expansion.Sound` — a formula says what a value is.

## Main results

* `accumulationTerms_sumsTo` — the contributions add up to the accumulated value.
* `Expansion.fittedStep_sound` — each operation makes sound formulas from those of the operands.
* `Expansion.build_sound` — every formula that is built is sound.
-/

namespace ArrayEquations

variable {R : Type*} [CommRing R] {I : Interpretation R} {inputs : ValueId → Position → R}

/-! ## Accumulated contributions -/

section Accumulation

variable {g : Graph}

/-- The entry that a contribution adds at a position of the sum. -/
def alignedEntry (I : Interpretation R) (inputs : ValueId → Position → R) (g : Graph)
    (p : Position) (w : ValueId) : R :=
  g.entry I inputs w ((g.shape w).align p)

/-- What holds of the contributions to a value: they come before it and stretch to its shape,
and their entries add up to its entries. -/
structure SumsTo (I : Interpretation R) (inputs : ValueId → Position → R) (g : Graph)
    (v : ValueId) (terms : List ValueId) : Prop where
  le : ∀ w ∈ terms, w ≤ v
  below : ∀ w ∈ terms, (g.shape w).Below (g.shape v)
  sum_eq : ∀ p ∈ (g.shape v).box,
    (terms.map (alignedEntry I inputs g p)).sum = g.entry I inputs v p

/-- The contributions to an accumulation are the ends of its tree. -/
theorem accumulationTerms_sumsTo (I : Interpretation R) (inputs : ValueId → Position → R)
    (names : NameTable) (hGraph : g.WellFormed) {v : ValueId} (h : isAccumulation g v = true) :
    SumsTo I inputs g v (accumulationTerms g v names) := by
  have hOpens : ∀ w, g.Opens names v w → isAccumulation g w = true :=
    fun _ => Graph.Opens.isAccumulation
  obtain ⟨tree, hTree, hTerms⟩ :=
    Graph.exists_accumulationTree hGraph.ordered hGraph.sumsFit names v
  refine ⟨?_, ?_, ?_⟩
  · intro w hw
    exact Nat.le_of_lt (lt_of_mem_accumulationTerms hGraph.ordered names h w hw)
  · rw [hTerms]
    exact (hTree.below_iff hGraph.sumsFit hOpens _).mpr (.refl _)
  · rw [hTerms]
    exact hTree.sum_frontier hGraph.sumsFit hOpens (hGraph.accumulates I inputs)

end Accumulation

/-! ## Soundness -/

namespace Expansion

/-- The formula refers to what it was built from and says what a value with the given axes
is. -/
def Sound (x : Expansion) (I : Interpretation R) (inputs : ValueId → Position → R)
    (id : ValueId) (axes : Axes) (f : SourcedExpr) : Prop :=
  f.WellSourced x.graph x.names ∧
    ∀ σ : Assignment, axes.position σ ∈ (x.graph.shape id).box →
      f.value I x.graph (x.graph.entry I inputs) σ =
        x.graph.entry I inputs id (axes.position σ)

variable {x : Expansion}

theorem sound_reference {id : ValueId} {axes : Axes} {live : List Index} {symbol : Symbol}
    (hFits : axes.Fits live (x.graph.shape id))
    (hSymbol : symbol = (x.names.symbol? id).getD (.plain (valueText id))) :
    x.Sound I inputs id axes (reference id symbol axes) := by
  refine ⟨⟨hSymbol, hFits.length_indices⟩, ?_⟩
  intro σ _
  show x.graph.entry I inputs id ((x.graph.shape id).spread (axes.indices.map σ)) = _
  rw [hFits.spread_indices]

/-- Formulas of the values before a value are sound. -/
def RecurSound (x : Expansion) (I : Interpretation R) (inputs : ValueId → Position → R)
    (recur : Recur) (id : ValueId) : Prop :=
  ∀ w < id, ∀ (scope : IndexScope) (axes : Axes) (f : SourcedExpr), scope.letters ≠ [] →
    axes.Fits scope.live (x.graph.shape w) → recur scope w axes = .ok f →
    x.Sound I inputs w axes f

section Rules

variable {recur : Recur} {id : ValueId} {scope : IndexScope} {axes : Axes} {f : SourcedExpr}

/-- The formula of an elementwise operand is read where the operand is aligned. -/
theorem elementwise_sound (hRecur : RecurSound x I inputs recur id)
    (hLetters : scope.letters ≠ []) {out : Shape} (hFits : axes.Fits scope.live out)
    {w : ValueId} (hw : w < id) (hBelow : (x.graph.shape w).Below out)
    (h : x.elementwise recur scope out axes w = .ok f) :
    f.WellSourced x.graph x.names ∧ ∀ σ, axes.position σ ∈ out.box →
      f.value I x.graph (x.graph.entry I inputs) σ =
        (x.graph.tensor I inputs w).aligned (axes.position σ) := by
  have hOperand := fits_elementwiseAxes hFits hBelow
  obtain ⟨hSourced, hValue⟩ := hRecur w hw scope _ f hLetters hOperand h
  refine ⟨hSourced, ?_⟩
  intro σ hMem
  have hPosition := position_elementwiseAxes (s := x.graph.shape w) hFits σ
  rw [hValue σ (hPosition ▸ Shape.align_mem_box hBelow hMem), hPosition]
  rfl

/-- The formulas of two elementwise operands. -/
theorem elementwisePair_sound (hRecur : RecurSound x I inputs recur id)
    (hLetters : scope.letters ≠ []) {out : Shape} (hFits : axes.Fits scope.live out)
    {a b : ValueId} (ha : a < id) (hb : b < id)
    (hBroadcast : (x.graph.shape a).broadcast (x.graph.shape b) = .ok out)
    {l r : SourcedExpr} (hLhs : x.elementwise recur scope out axes a = .ok l)
    (hRhs : x.elementwise recur scope out axes b = .ok r) :
    l.WellSourced x.graph x.names ∧ r.WellSourced x.graph x.names ∧
      ∀ σ, axes.position σ ∈ out.box →
        l.value I x.graph (x.graph.entry I inputs) σ =
            (x.graph.tensor I inputs a).aligned (axes.position σ) ∧
          r.value I x.graph (x.graph.entry I inputs) σ =
            (x.graph.tensor I inputs b).aligned (axes.position σ) := by
  obtain ⟨hBelowA, hBelowB⟩ := Shape.below_of_broadcast hBroadcast
  obtain ⟨hSourcedL, hValueL⟩ := elementwise_sound hRecur hLetters hFits ha hBelowA hLhs
  obtain ⟨hSourcedR, hValueR⟩ := elementwise_sound hRecur hLetters hFits hb hBelowB hRhs
  exact ⟨hSourcedL, hSourcedR, fun σ hMem => ⟨hValueL σ hMem, hValueR σ hMem⟩⟩

/-- The formula of an operand that is read at one position of its array. -/
theorem gathered_sound (hRecur : RecurSound x I inputs recur id)
    (hLetters : scope.letters ≠ []) {w : ValueId} (hw : w < id) {operandAxes : Axes}
    (hOperand : operandAxes.Fits scope.live (x.graph.shape w))
    (hMem : ∀ σ, axes.position σ ∈ (x.graph.shape id).box →
      operandAxes.position σ ∈ (x.graph.shape w).box)
    (hEntry : ∀ σ, axes.position σ ∈ (x.graph.shape id).box →
      x.graph.entry I inputs id (axes.position σ) =
        x.graph.entry I inputs w (operandAxes.position σ))
    (h : recur scope w operandAxes = .ok f) : x.Sound I inputs id axes f := by
  obtain ⟨hSourced, hValue⟩ := hRecur w hw scope _ f hLetters hOperand h
  refine ⟨hSourced, ?_⟩
  intro σ hPosition
  rw [hValue σ (hMem σ hPosition), hEntry σ hPosition]

/-- A summation is sound if the sum over its indices is the entry; without indices the sum is
the body. -/
theorem summation_sound {indices : List Index} {body : SourcedExpr}
    (hNodup : indices.Nodup) (hLength : indices.length = (x.graph.openedExtents id).length)
    (hSourced : body.WellSourced x.graph x.names)
    (hSum : ∀ σ, axes.position σ ∈ (x.graph.shape id).box →
      sumOver (indices.zip (x.graph.openedExtents id))
        (body.value I x.graph (x.graph.entry I inputs)) σ =
      x.graph.entry I inputs id (axes.position σ)) :
    x.Sound I inputs id axes (summation id indices body) := by
  unfold summation
  split
  · rename_i hEmpty
    rw [List.isEmpty_iff] at hEmpty
    refine ⟨hSourced, ?_⟩
    intro σ hMem
    have hValue := hSum σ hMem
    rwa [hEmpty, List.zip_nil_left, sumOver] at hValue
  · exact ⟨⟨hNodup, hLength, hSourced⟩, hSum⟩

theorem reduce_sound (hRecur : RecurSound x I inputs recur id)
    (hLetters : scope.letters ≠ []) {summed : List Nat} {a : ValueId} (ha : a < id)
    (hGet : x.graph.get? id = some ⟨.op (.reduceSum summed) [a], x.graph.shape id⟩)
    (hShape : x.graph.shape id =
      ((x.graph.shape a).axes.filter fun k => !summed.contains k).map (x.graph.shape a).extent)
    (hFits : axes.Fits scope.live (x.graph.shape id)) {body : SourcedExpr}
    (h : recur (reduceAxes summed (x.graph.shape a).zipIdx axes scope).2.2 a
      (reduceAxes summed (x.graph.shape a).zipIdx axes scope).1 = .ok body) :
    x.Sound I inputs id axes
      (summation id (reduceAxes summed (x.graph.shape a).zipIdx axes scope).2.1 body) := by
  rw [keptExtents_eq] at hShape
  rw [hShape] at hFits
  -- The new indices are the summed axes of the operand, the other axes keep theirs.
  have hOpens := reduceAxes_opens summed (x.graph.shape a).zipIdx axes scope hLetters
  have hLength := length_reduceAxes summed (x.graph.shape a).zipIdx axes scope
  have hOperand := reduceAxes_fits hLetters hFits
  have hInner : (reduceAxes summed (x.graph.shape a).zipIdx axes scope).2.2.letters ≠ [] :=
    hOpens.letters_eq ▸ hLetters
  obtain ⟨hSourced, hValue⟩ := hRecur a ha _ _ body hInner hOperand h
  have hOpened : x.graph.openedExtents id =
      summedExtents summed (x.graph.shape a).zipIdx := by
    rw [Graph.openedExtents, Graph.op?_of_get? hGet]
    rfl
  have hEntry : ∀ p, x.graph.entry I inputs id p =
      ∑ q ∈ summedPositions summed (x.graph.shape a) p, x.graph.entry I inputs a q := by
    intro p
    rw [Graph.entry_of_op hGet (by simpa using ha)]
    rfl
  have hSum : ∀ σ, axes.position σ ∈ (x.graph.shape id).box →
      sumOver ((reduceAxes summed (x.graph.shape a).zipIdx axes scope).2.1.zip
        (x.graph.openedExtents id)) (body.value I x.graph (x.graph.entry I inputs)) σ =
      x.graph.entry I inputs id (axes.position σ) := by
    intro σ hMem
    rw [hShape] at hMem
    rw [hOpened, hEntry, summedPositions_eq]
    exact sumOver_reduceAxes hLetters hFits hMem fun τ _ hPosition => hValue τ hPosition
  exact summation_sound hOpens.nodup (by rw [hLength, hOpened]) hSourced hSum

theorem contract_sound (hRecur : RecurSound x I inputs recur id)
    (hLetters : scope.letters ≠ []) {paired : ContractionAxes} {a b : ValueId} (ha : a < id)
    (hb : b < id)
    (hGet : x.graph.get? id = some ⟨.op (.contract paired) [a, b], x.graph.shape id⟩)
    (hPairable : paired.Pairable (x.graph.shape a) (x.graph.shape b))
    (hShape : x.graph.shape id = paired.outShape (x.graph.shape a) (x.graph.shape b))
    (hFits : axes.Fits scope.live (x.graph.shape id)) {pairs : List (Nat × Nat × Index)}
    {inner : IndexScope} {l r : SourcedExpr}
    (hBound : contractedIndices (x.graph.shape a) (x.graph.shape b)
      (paired.lhsContract.zip paired.rhsContract) scope = (pairs, inner))
    (hLhs : recur inner a (contractedAxes (x.graph.shape a) paired.lhsBatch
      (paired.lhsFree (x.graph.shape a).rank) paired.lhsBatch.length
      (pairs.map fun y => (y.1, y.2.2)) axes) = .ok l)
    (hRhs : recur inner b (contractedAxes (x.graph.shape b) paired.rhsBatch
      (paired.rhsFree (x.graph.shape b).rank)
      (paired.lhsBatch.length + (paired.lhsFree (x.graph.shape a).rank).length)
      (pairs.map fun y => (y.2.1, y.2.2)) axes) = .ok r) :
    x.Sound I inputs id axes (summation id (pairs.map (·.2.2)) (.binary .mul l r)) := by
  rw [hShape] at hFits
  -- A pair of contracted axes has one index, unless one of its extents is one.
  have hBinds := bindsPairs_contractedIndices hPairable hLetters
  have hMap := map_contractedIndices (x.graph.shape a) (x.graph.shape b)
    (paired.lhsContract.zip paired.rhsContract) scope
  rw [hBound] at hBinds hMap
  have hInner : inner.letters ≠ [] := hBinds.opens.letters_eq ▸ hLetters
  obtain ⟨hSourcedL, hValueL⟩ := hRecur a ha _ _ l hInner
    (placeable_lhs hPairable hFits hBinds).fits_contractedAxes hLhs
  obtain ⟨hSourcedR, hValueR⟩ := hRecur b hb _ _ r hInner
    (placeable_rhs hPairable hFits hBinds).fits_contractedAxes hRhs
  have hOpened : x.graph.openedExtents id =
      pairs.map fun y => (x.graph.shape a).extent y.1 := by
    rw [Graph.openedExtents, Graph.op?_of_get? hGet]
    simp only
    rw [← hMap, List.map_map]
    rfl
  have hEntry : ∀ p, x.graph.entry I inputs id p =
      ∑ y ∈ paired.pairs (x.graph.shape a) (x.graph.shape b) p,
        x.graph.entry I inputs a y.1 * x.graph.entry I inputs b y.2 := by
    intro p
    rw [Graph.entry_of_op hGet (by simp [ha, hb])]
    rfl
  have hSum : ∀ σ, axes.position σ ∈ (x.graph.shape id).box →
      sumOver ((pairs.map (·.2.2)).zip (x.graph.openedExtents id))
        ((SourcedExpr.binary .mul l r).value I x.graph (x.graph.entry I inputs)) σ =
      x.graph.entry I inputs id (axes.position σ) := by
    intro σ hMem
    rw [hShape] at hMem
    rw [hOpened, hEntry]
    apply sumOver_contraction hPairable hFits hBinds hMem
    -- Under each assignment to the new indices both operands are read inside their boxes.
    intro τ hPair
    obtain ⟨⟨hLeft, hRight⟩, -⟩ := ContractionAxes.mem_pairs.mp hPair
    show l.value I x.graph _ τ * r.value I x.graph _ τ = _
    rw [hValueL τ hLeft, hValueR τ hRight]
    rfl
  exact summation_sound hBinds.opens.nodup (by rw [hOpened]; simp) ⟨hSourcedL, hSourcedR⟩ hSum

theorem reshape_sound (hRecur : RecurSound x I inputs recur id)
    (hLetters : scope.letters ≠ []) {a : ValueId} (ha : a < id)
    (hGet : x.graph.get? id = some ⟨.op .reshape [a], x.graph.shape id⟩)
    (hFits : axes.Fits scope.live (x.graph.shape id))
    (hSame : (x.graph.shape a).nonSingleton = (x.graph.shape id).nonSingleton)
    (h : recur scope a (reshapeAxes (x.graph.shape a) (x.graph.shape id) axes) = .ok f) :
    x.Sound I inputs id axes f := by
  have hSize : (x.graph.shape a).size = (x.graph.shape id).size := by
    rw [← Shape.size_nonSingleton, hSame, Shape.size_nonSingleton]
  refine gathered_sound hRecur hLetters ha (fits_reshapeAxes hSame hFits) ?_ ?_ h
  · intro σ hMem
    rw [position_reshapeAxes hSame hFits hMem]
    exact Shape.reshaped_mem_box hSize hMem
  · intro σ hMem
    rw [position_reshapeAxes hSame hFits hMem, Graph.entry_of_op hGet (by simpa using ha)]
    rfl

/-- The formulas of contributions, one after the other. -/
theorem contributions_sound (hRecur : RecurSound x I inputs recur id)
    (hLetters : scope.letters ≠ []) (hFits : axes.Fits scope.live (x.graph.shape id))
    {terms : List ValueId} (hLt : ∀ w ∈ terms, w < id)
    (hBelow : ∀ w ∈ terms, (x.graph.shape w).Below (x.graph.shape id))
    {built : List SourcedExpr}
    (h : List.Forall₂ (fun w t => x.elementwise recur scope (x.graph.shape id) axes w = .ok t)
      terms built) :
    (∀ t ∈ built, t.WellSourced x.graph x.names) ∧
      ∀ σ, axes.position σ ∈ (x.graph.shape id).box →
        built.map (fun t => t.value I x.graph (x.graph.entry I inputs) σ) =
          terms.map (alignedEntry I inputs x.graph (axes.position σ)) := by
  induction h with
  | nil => exact ⟨fun t ht => absurd ht List.not_mem_nil, fun _ _ => rfl⟩
  | @cons w t terms ts hOne _ ih =>
    obtain ⟨hSourced, hValue⟩ := elementwise_sound hRecur hLetters hFits
      (hLt w List.mem_cons_self) (hBelow w List.mem_cons_self) hOne
    -- The rows are in step, so the first contribution and the rest are taken apart together.
    obtain ⟨hSourcedRest, hValueRest⟩ := ih (fun u hu => hLt u (List.mem_cons_of_mem _ hu))
      (fun u hu => hBelow u (List.mem_cons_of_mem _ hu))
    refine ⟨List.forall_mem_cons.mpr ⟨hSourced, hSourcedRest⟩, ?_⟩
    intro σ hMem
    rw [List.map_cons, List.map_cons, hValue σ hMem, hValueRest σ hMem]
    rfl

theorem accumulate_sound (hGraph : x.graph.WellFormed)
    (hRecur : RecurSound x I inputs recur id) (hLetters : scope.letters ≠ [])
    {operands : List ValueId}
    (hGet : x.graph.get? id = some ⟨.op .accumulate operands, x.graph.shape id⟩)
    (hFits : axes.Fits scope.live (x.graph.shape id)) {built : List SourcedExpr}
    (h : List.Forall₂ (fun w t => x.elementwise recur scope (x.graph.shape id) axes w = .ok t)
      (accumulationTerms x.graph id x.names) built)
    (hFormula : built = [f] ∨ f = .terms built) : x.Sound I inputs id axes f := by
  have hAccumulation : isAccumulation x.graph id = true := by
    rw [isAccumulation, Graph.op?_of_get? hGet]
  have hTerms := accumulationTerms_sumsTo I inputs x.names hGraph hAccumulation
  have hLt := lt_of_mem_accumulationTerms hGraph.ordered x.names hAccumulation
  obtain ⟨hSourced, hValue⟩ := contributions_sound hRecur hLetters hFits hLt hTerms.below h
  have hSum : ∀ σ, axes.position σ ∈ (x.graph.shape id).box →
      (built.map fun t => t.value I x.graph (x.graph.entry I inputs) σ).sum =
        x.graph.entry I inputs id (axes.position σ) := by
    intro σ hMem
    rw [hValue σ hMem, hTerms.sum_eq _ hMem]
  -- A single contribution is written without a sum around it.
  rcases hFormula with rfl | rfl
  · refine ⟨hSourced f List.mem_cons_self, ?_⟩
    intro σ hMem
    rw [← hSum σ hMem, List.map_singleton, List.sum_singleton]
  · refine ⟨SourcedExpr.wellSourcedEach_iff.mpr hSourced, ?_⟩
    intro σ hMem
    rw [← hSum σ hMem]
    exact SourcedExpr.valueEach_eq_sum I x.graph _ built σ

/-- Each operation makes sound formulas from those of the operands. -/
theorem fittedStep_sound (hGraph : x.graph.WellFormed)
    (hRecur : RecurSound x I inputs recur id) (hLetters : scope.letters ≠ [])
    {op : Operation} {operands : List ValueId}
    (hGet : x.graph.get? id = some ⟨.op op operands, x.graph.shape id⟩)
    (hFits : axes.Fits scope.live (x.graph.shape id))
    (h : x.FittedStep recur scope id axes op operands f) : x.Sound I inputs id axes f := by
  have hEntry : ∀ p, x.graph.entry I inputs id p =
      op.entry I (operands.map (x.graph.tensor I inputs)) (x.graph.shape id) p :=
    Graph.entry_of_op hGet (hGraph.before hGet)
  cases h with
  | arith ha hb hBroadcast hLhs hRhs | indicator ha hb hBroadcast hLhs hRhs =>
    obtain ⟨hSourcedL, hSourcedR, hValues⟩ :=
      elementwisePair_sound hRecur hLetters hFits ha hb hBroadcast hLhs hRhs
    refine ⟨⟨hSourcedL, hSourcedR⟩, ?_⟩
    intro σ hMem
    obtain ⟨hValueL, hValueR⟩ := hValues σ hMem
    rw [SourcedExpr.value, hValueL, hValueR, hEntry]
    rfl
  | accumulate hBuilt hFormula =>
    exact accumulate_sound hGraph hRecur hLetters hGet hFits hBuilt hFormula
  | neg ha hShape hOperand | call ha hShape hOperand =>
    obtain ⟨hSourced, hValue⟩ :=
      elementwise_sound hRecur hLetters hFits ha (hShape ▸ .refl _) hOperand
    refine ⟨hSourced, ?_⟩
    intro σ hMem
    rw [SourcedExpr.value, hValue σ hMem, hEntry]
    rfl
  | contract ha hb hPairable hShape hBound hLhs hRhs =>
    exact contract_sound hRecur hLetters ha hb hGet hPairable hShape hFits hBound hLhs hRhs
  | reduceSum ha _ _ hShape hBody =>
    exact reduce_sound hRecur hLetters ha hGet hShape hFits hBody
  | broadcast ha hStretches hOperand =>
    refine gathered_sound hRecur hLetters ha (fits_broadcastAxes hFits hStretches) ?_ ?_ hOperand
    · intro σ hMem
      rw [position_broadcastAxes hStretches.length_eq]
      exact Shape.project_mem_box hStretches hMem
    · intro σ _
      rw [position_broadcastAxes hStretches.length_eq, hEntry]
      rfl
  | transpose ha hPermutation hLength hShape hOperand =>
    refine gathered_sound hRecur hLetters ha
      (fits_transposeAxes hPermutation hLength (hShape ▸ hFits)) ?_ ?_ hOperand
    · intro σ hMem
      rw [position_transposeAxes hPermutation hLength]
      exact unpermute_mem_box hPermutation hLength (hShape ▸ hMem)
    · intro σ _
      rw [position_transposeAxes hPermutation hLength, hEntry]
      rfl
  | reshape ha hSame hOperand => exact reshape_sound hRecur hLetters ha hGet hFits hSame hOperand
  | cast ha hShape hOperand =>
    refine gathered_sound hRecur hLetters ha (hShape ▸ hFits) ?_ ?_ hOperand
    · intro σ hMem
      rwa [hShape]
    · intro σ _
      rw [hEntry]
      rfl

end Rules

/-- What is built with enough fuel is sound. -/
theorem buildWithin_sound (hGraph : x.graph.WellFormed)
    (hRoot : ∀ root, x.root = some root → root < x.graph.size) {fuel id : Nat}
    (hFuel : id < fuel ∨ x.graph.size ≤ id) {scope : IndexScope}
    (hLetters : scope.letters ≠ []) {axes : Axes}
    (hFits : axes.Fits scope.live (x.graph.shape id)) {f : SourcedExpr}
    (h : x.buildWithin fuel scope id axes = .ok f) : x.Sound I inputs id axes f := by
  -- The induction is on the fuel, which bounds the value; operands stand before it.
  induction fuel using Nat.strong_induction_on generalizing id scope axes f with
  | _ fuel ih =>
    cases buildStep_of_buildWithin h with
    | symbol hNot hSymbol => exact sound_reference hFits (by rw [hSymbol]; rfl)
    | missing hGet hExpands =>
      -- The root is a value of the graph.
      have hNone : x.names.symbol? id = none := hExpands.resolve_left fun hIsRoot => by
        obtain ⟨value, hValue⟩ := Graph.exists_get? (hRoot id hIsRoot)
        exact absurd (hGet.symm.trans hValue) (by simp)
      exact sound_reference hFits (by rw [hNone]; rfl)
    | input hGet hExpands => exact sound_reference hFits rfl
    | literal hGet hExpands =>
      refine ⟨trivial, ?_⟩
      intro σ _
      rw [Graph.entry_of_literal hGet]
      rfl
    | exhausted hGet hExpands =>
      have hId := hFuel.resolve_right (Nat.not_le.mpr (Graph.lt_size_of_get? hGet))
      exact absurd hId (Nat.not_lt_zero _)
    | @operation fuel _ _ s _ _ hGet hExpands hRule hStep =>
      have hId := hFuel.resolve_right (Nat.not_le.mpr (Graph.lt_size_of_get? hGet))
      obtain rfl : x.graph.shape id = s := Graph.shape_of_get? hGet
      refine fittedStep_sound hGraph ?_ hLetters hGet hFits
        (fittedStep_of_ruleStep hGraph hGet hRule hStep)
      intro w hw scope' axes' f' hLetters' hAxes hBuild
      exact ih fuel (Nat.lt_succ_self fuel)
        (Or.inl (Nat.lt_of_lt_of_le hw (Nat.lt_succ_iff.mp hId))) hLetters' hAxes hBuild

/-- **Every formula that is built is sound.** -/
theorem build_sound (hGraph : x.graph.WellFormed)
    (hRoot : ∀ root, x.root = some root → root < x.graph.size) {scope : IndexScope}
    (hLetters : scope.letters ≠ []) {id : ValueId} {axes : Axes}
    (hFits : axes.Fits scope.live (x.graph.shape id)) {f : SourcedExpr}
    (h : x.build scope id axes = .ok f) : x.Sound I inputs id axes f :=
  buildWithin_sound hGraph hRoot (Nat.lt_or_ge id x.graph.size) hLetters hFits h

end Expansion

end ArrayEquations
