import ArrayEquations.Proofs.EquationSoundness

/-!
# ArrayEquations — index hygiene

An index of a formula is on the left-hand side of its equation or bound by a summation
around it, and never both: no summation captures an index from outside. The scope is a
stack; at each place in a formula it holds exactly the indices that may occur there.

How many indices there are follows from the graph alone. A symbol has one for each axis
of its value with an extent other than one, and so has a summation for each axis that it
sums over; an operation that sums over no such axis opens no summation.

## Main definitions

* `Expr.Scoped` — no index is free or captured.
* `Expansion.Writes` — how a formula follows the operations of the graph.
* `EquationPlan.Hygienic` — what holds of the equation that a plan becomes.

## Main results

* `Expansion.build_hygienic` — a built formula is scoped and follows the graph.
* `buildProgram_hygienic` — every equation of a program is hygienic.
-/

namespace ArrayEquations

/-! ## Scoped formulas -/

namespace Expr

mutual

/-- Every index is among those given or bound by a summation around it. A summation binds at
least one index, each once, and none that is there already. -/
def Scoped (live : List Index) : Expr → Prop
  | .var r => ∀ i ∈ r.indices, i ∈ live
  | .literal _ => True
  | .binary _ lhs rhs => lhs.Scoped live ∧ rhs.Scoped live
  | .neg e => e.Scoped live
  | .call _ argument => argument.Scoped live
  | .indicator _ lhs rhs => lhs.Scoped live ∧ rhs.Scoped live
  | .sum indices body =>
    indices ≠ [] ∧ indices.Nodup ∧ (∀ i ∈ indices, i ∉ live) ∧ body.Scoped (live ++ indices)
  | .terms ts => ScopedEach live ts

/-- All of the formulas are scoped. -/
def ScopedEach (live : List Index) : List Expr → Prop
  | [] => True
  | t :: ts => t.Scoped live ∧ ScopedEach live ts

end

end Expr

theorem SourcedExpr.scopedEach_iff {live : List Index} {ts : List SourcedExpr} :
    Expr.ScopedEach live (exprEach ts) ↔ ∀ t ∈ ts, t.expr.Scoped live := by
  induction ts with
  | nil => simp [exprEach, Expr.ScopedEach]
  | cons t ts ih => rw [exprEach, Expr.ScopedEach, ih, List.forall_mem_cons]

/-- Indices that fit the axes of a shape are in scope. -/
theorem Axes.Fits.indices_mem {axes : Axes} {live : List Index} {s : Shape}
    (h : axes.Fits live s) : ∀ i ∈ axes.indices, i ∈ live := by
  intro i hi
  obtain ⟨entry, hEntry, rfl⟩ := List.mem_filterMap.mp hi
  obtain ⟨k, hk, hGet⟩ := List.getElem_of_mem hEntry
  have hkShape : k < s.rank := h.length_eq ▸ hk
  have hAxis : axes.at? k = some i := by
    rw [Axes.at?, List.getElem?_eq_getElem hk, hGet]
    rfl
  have hFits := h.axis k hkShape
  by_cases hOne : s.extent k = 1
  · rw [hOne, hAxis] at hFits
    exact absurd hFits.eq_none (by simp)
  · obtain ⟨j, hj, hEq⟩ := hFits.exists_some hOne
    rw [hAxis] at hEq
    exact Option.some.inj hEq ▸ hj

/-! ## Summed axes -/

/-- A contraction binds an index for each contracted axis of extent other than one. -/
theorem length_contractedIndices {axes : ContractionAxes} {ls rs : Shape}
    (h : axes.Pairable ls rs) (scope : IndexScope) :
    ((contractedIndices ls rs (axes.lhsContract.zip axes.rhsContract) scope).1.map
      (·.2.2)).length = (Shape.nonSingleton (axes.lhsContract.map ls.extent)).length := by
  have hPairs := congrArg List.length
    (map_contractedIndices ls rs (axes.lhsContract.zip axes.rhsContract) scope)
  rw [List.length_map] at hPairs ⊢
  rw [hPairs]
  -- Paired axes have one extent, so it does not matter which of the two is asked.
  have hAsked : ∀ y ∈ axes.lhsContract.zip axes.rhsContract,
      (!(ls.extent y.1 == 1 || rs.extent y.2 == 1)) =
        ((fun l => ls.extent l != 1) ∘ Prod.fst) y := by
    intro y hy
    have hExtent := contract_extent_eq h hy
    simp [← hExtent, bne]
  refine (congrArg List.length (List.filter_congr hAsked)).trans ?_
  rw [Shape.nonSingleton, List.filter_map, List.length_map]
  show _ = (axes.lhsContract.filter fun l => ls.extent l != 1).length
  rw [← h.map_fst_contract, List.filter_map, List.length_map, h.map_fst_contract]

/-- A sum over axes binds an index for each of them that has an extent other than one. -/
theorem length_summedIndices {axes : List Nat} {s : Shape} (hLt : ∀ k ∈ axes, k < s.rank)
    (hNodup : axes.Nodup) (kept : Axes) (scope : IndexScope) :
    (reduceAxes axes s.zipIdx kept scope).2.1.length =
      (Shape.nonSingleton (axes.map s.extent)).length := by
  -- Both lists hold the summed axes that have more than one position, each once.
  let summed : List Nat := (s.zipIdx.filter fun x => axes.contains x.2 && x.1 != 1).map (·.2)
  have hSummed : summed.Nodup := by
    have hSnd : (s.zipIdx.map Prod.snd).Nodup := by
      rw [List.zipIdx_map_snd]
      exact List.nodup_range'
    exact hSnd.sublist (List.filter_sublist.map _)
  have hMem : ∀ k, k ∈ summed ↔ k ∈ axes.filter fun k => s.extent k != 1 := by
    intro k
    rw [List.mem_filter]
    constructor
    · intro hk
      obtain ⟨⟨extent, k⟩, hPair, rfl⟩ := List.mem_map.mp hk
      obtain ⟨hZip, hAsked⟩ := List.mem_filter.mp hPair
      have hExtent : s.extent k = extent := by
        rw [Shape.extent, List.getD_eq_getElem?_getD, List.mk_mem_zipIdx_iff_getElem?.mp hZip]
        rfl
      simpa [hExtent] using hAsked
    · rintro ⟨hk, hExtent⟩
      have hGet : s[k]? = some (s.extent k) := by
        have hLength : k < s.length := hLt k hk
        rw [Shape.extent, List.getD_eq_getElem?_getD, List.getElem?_eq_getElem hLength]
        rfl
      apply List.mem_map.mpr
      refine ⟨(s.extent k, k), List.mem_filter.mpr ⟨?_, ?_⟩, rfl⟩
      · exact List.mk_mem_zipIdx_iff_getElem?.mpr hGet
      · simpa [hk] using hExtent
  -- The operand's axes are asked in their order, the summed axes may stand in another one.
  have hPerm : summed.Perm (axes.filter fun k => s.extent k != 1) :=
    (List.perm_ext_iff_of_nodup hSummed (hNodup.filter _)).mpr hMem
  rw [length_reduceAxes, summedExtents, Shape.nonSingleton, List.filter_map, List.length_map,
    List.length_map]
  have hLength := hPerm.length_eq
  rw [List.length_map] at hLength
  exact hLength

/-! ## Formulas that follow the graph -/

/-- The rule writes an operation as its operand. -/
def Rule.isElision : Rule → Bool
  | .elide | .reshape | .broadcast _ | .transpose _ => true
  | _ => false

namespace Expansion

/-- The formula follows the operations of the graph from the value down to symbols, inputs and
constants. A symbol has one index for each axis of its value with an extent other than one.
An operation that sums over axes opens a summation with one index for each of them with an
extent other than one, and none if there is no such axis. -/
inductive Writes (x : Expansion) : ValueId → SourcedExpr → Prop
  | symbol {v : ValueId} {s : Symbol} {indices : List Index} (hNot : ¬ x.Expands v)
      (hSymbol : x.names.symbol? v = some s)
      (hLength : indices.length = (x.graph.shape v).nonSingleton.length) :
      Writes x v (.var v ⟨s, indices⟩)
  | input {v : ValueId} {indices : List Index} {s : Shape}
      (hGet : x.graph.get? v = some ⟨.leaf, s⟩) (hExpands : x.Expands v)
      (hLength : indices.length = s.nonSingleton.length) :
      Writes x v (.var v ⟨(x.names.symbol? v).getD (.plain (valueText v)), indices⟩)
  | literal {v : ValueId} {c : Float} {s : Shape} (hGet : x.graph.get? v = some ⟨.literal c, s⟩)
      (hExpands : x.Expands v) : Writes x v (.literal c)
  /-- A position without a value is written as itself. -/
  | missing {v : ValueId} (hGet : x.graph.get? v = none) (hExpands : x.Expands v) :
      Writes x v (.var v (⟨.plain (valueText v), []⟩))
  | same {v a : ValueId} {op : Operation} {rule : Rule} {f : SourcedExpr}
      (hOp : x.graph.op? v = some (op, [a])) (hExpands : x.Expands v)
      (hRule : op.rule? = some rule) (hElision : rule.isElision = true) (ha : Writes x a f) :
      Writes x v f
  | arith {v a b : ValueId} {op : Arith} {l r : SourcedExpr}
      (hOp : x.graph.op? v = some (.arith op, [a, b])) (hExpands : x.Expands v)
      (ha : Writes x a l) (hb : Writes x b r) : Writes x v (.binary op l r)
  | indicator {v a b : ValueId} {c : Comparison} {l r : SourcedExpr}
      (hOp : x.graph.op? v = some (.indicator c, [a, b])) (hExpands : x.Expands v)
      (ha : Writes x a l) (hb : Writes x b r) : Writes x v (.indicator c l r)
  | neg {v a : ValueId} {f : SourcedExpr} (hOp : x.graph.op? v = some (.neg, [a]))
      (hExpands : x.Expands v) (ha : Writes x a f) : Writes x v (.neg f)
  | call {v a : ValueId} {fn : NamedFunction} {f : SourcedExpr}
      (hOp : x.graph.op? v = some (.call fn, [a])) (hExpands : x.Expands v)
      (ha : Writes x a f) : Writes x v (.call fn f)
  | terms {v : ValueId} {operands : List ValueId} {ts : List SourcedExpr}
      (hOp : x.graph.op? v = some (.accumulate, operands)) (hExpands : x.Expands v)
      (hLength : ts.length = (accumulationTerms x.graph v x.names).length)
      (hTerms : ∀ y ∈ (accumulationTerms x.graph v x.names).zip ts, Writes x y.1 y.2) :
      Writes x v (.terms ts)
  | contract {v a b : ValueId} {axes : ContractionAxes} {indices : List Index}
      {l r : SourcedExpr} (hOp : x.graph.op? v = some (.contract axes, [a, b]))
      (hExpands : x.Expands v) (ha : Writes x a l) (hb : Writes x b r)
      (hLhs : indices.length =
        (Shape.nonSingleton (axes.lhsContract.map (x.graph.shape a).extent)).length)
      (hRhs : indices.length =
        (Shape.nonSingleton (axes.rhsContract.map (x.graph.shape b).extent)).length) :
      Writes x v (summation v indices (.binary .mul l r))
  | reduceSum {v a : ValueId} {axes : List Nat} {indices : List Index} {f : SourcedExpr}
      (hOp : x.graph.op? v = some (.reduceSum axes, [a])) (hExpands : x.Expands v)
      (ha : Writes x a f)
      (hLength : indices.length =
        (Shape.nonSingleton (axes.map (x.graph.shape a).extent)).length) :
      Writes x v (summation v indices f)

/-- The formula of a value has its indices from the scope and follows the graph. -/
structure Hygienic (x : Expansion) (live : List Index) (v : ValueId) (f : SourcedExpr) :
    Prop where
  inScope : f.expr.Scoped live
  writes : x.Writes v f

variable {x : Expansion} {scope inner : IndexScope} {id : ValueId} {axes : Axes} {f : SourcedExpr}

/-- A reference with the indices of its value's axes. -/
private theorem scoped_reference {s : Shape} (hFits : axes.Fits scope.live s) (source : ValueId)
    (symbol : Symbol) : (reference source symbol axes).expr.Scoped scope.live :=
  hFits.indices_mem

/-- The new indices of a summation are in scope in its body, and nowhere else. -/
private theorem scoped_summation {bound : List Index} {body : SourcedExpr}
    (hOpens : scope.Opens bound inner) (hBody : body.expr.Scoped inner.live) :
    (summation id bound body).expr.Scoped scope.live := by
  rw [hOpens.live_eq] at hBody
  unfold summation
  split
  · rename_i hEmpty
    rwa [List.isEmpty_iff.mp hEmpty, List.append_nil] at hBody
  · rename_i hNonempty
    rw [List.isEmpty_iff] at hNonempty
    exact ⟨hNonempty, hOpens.nodup, hOpens.fresh, hBody⟩

/-- Formulas of the values before a value are hygienic. -/
def RecurHygienic (x : Expansion) (recur : Recur) (id : ValueId) : Prop :=
  ∀ w < id, ∀ (scope : IndexScope) (axes : Axes) (f : SourcedExpr), scope.letters ≠ [] →
    axes.Fits scope.live (x.graph.shape w) → recur scope w axes = .ok f →
    x.Hygienic scope.live w f

section Rules

variable {recur : Recur}

theorem elementwise_hygienic (hRecur : RecurHygienic x recur id) (hLetters : scope.letters ≠ [])
    {out : Shape} (hFits : axes.Fits scope.live out) {w : ValueId} (hw : w < id)
    (hBelow : (x.graph.shape w).Below out) (h : x.elementwise recur scope out axes w = .ok f) :
    x.Hygienic scope.live w f :=
  hRecur w hw scope _ f hLetters (fits_elementwiseAxes hFits hBelow) h

/-- Both operands are built in one scope. -/
theorem elementwisePair_hygienic (hRecur : RecurHygienic x recur id)
    (hLetters : scope.letters ≠ []) {out : Shape} (hFits : axes.Fits scope.live out)
    {a b : ValueId} (ha : a < id) (hb : b < id)
    (hBroadcast : (x.graph.shape a).broadcast (x.graph.shape b) = .ok out)
    {l r : SourcedExpr} (hLhs : x.elementwise recur scope out axes a = .ok l)
    (hRhs : x.elementwise recur scope out axes b = .ok r) :
    x.Hygienic scope.live a l ∧ x.Hygienic scope.live b r := by
  obtain ⟨hBelowA, hBelowB⟩ := Shape.below_of_broadcast hBroadcast
  exact ⟨elementwise_hygienic hRecur hLetters hFits ha hBelowA hLhs,
    elementwise_hygienic hRecur hLetters hFits hb hBelowB hRhs⟩

/-- An operation that is written as its operand, under other indices of the same scope. -/
theorem same_hygienic (hRecur : RecurHygienic x recur id) (hLetters : scope.letters ≠ [])
    {a : ValueId} {op : Operation} {rule : Rule} {operandAxes : Axes}
    (hOp : x.graph.op? id = some (op, [a])) (hExpands : x.Expands id)
    (hRule : op.rule? = some rule) (hElision : rule.isElision = true) (ha : a < id)
    (hOperand : operandAxes.Fits scope.live (x.graph.shape a))
    (h : recur scope a operandAxes = .ok f) : x.Hygienic scope.live id f := by
  have hBuilt := hRecur a ha scope _ f hLetters hOperand h
  exact ⟨hBuilt.inScope, .same hOp hExpands hRule hElision hBuilt.writes⟩

theorem reduce_hygienic (hRecur : RecurHygienic x recur id) (hLetters : scope.letters ≠ [])
    {summed : List Nat} {a : ValueId} (ha : a < id)
    (hOp : x.graph.op? id = some (.reduceSum summed, [a])) (hExpands : x.Expands id)
    (hLt : ∀ k ∈ summed, k < (x.graph.shape a).rank) (hNodup : summed.Nodup)
    (hShape : x.graph.shape id =
      ((x.graph.shape a).axes.filter fun k => !summed.contains k).map (x.graph.shape a).extent)
    (hFits : axes.Fits scope.live (x.graph.shape id)) {body : SourcedExpr}
    (h : recur (reduceAxes summed (x.graph.shape a).zipIdx axes scope).2.2 a
      (reduceAxes summed (x.graph.shape a).zipIdx axes scope).1 = .ok body) :
    x.Hygienic scope.live id
      (summation id (reduceAxes summed (x.graph.shape a).zipIdx axes scope).2.1 body) := by
  rw [hShape, keptExtents_eq] at hFits
  have hOpens := reduceAxes_opens summed (x.graph.shape a).zipIdx axes scope hLetters
  have hInner : (reduceAxes summed (x.graph.shape a).zipIdx axes scope).2.2.letters ≠ [] :=
    hOpens.letters_eq ▸ hLetters
  have hBody := hRecur a ha _ _ body hInner (reduceAxes_fits hLetters hFits) h
  exact ⟨scoped_summation hOpens hBody.inScope,
    .reduceSum hOp hExpands hBody.writes (length_summedIndices hLt hNodup axes scope)⟩

theorem contract_hygienic (hRecur : RecurHygienic x recur id) (hLetters : scope.letters ≠ [])
    {paired : ContractionAxes} {a b : ValueId} (ha : a < id) (hb : b < id)
    (hOp : x.graph.op? id = some (.contract paired, [a, b])) (hExpands : x.Expands id)
    (hPairable : paired.Pairable (x.graph.shape a) (x.graph.shape b))
    (hShape : x.graph.shape id = paired.outShape (x.graph.shape a) (x.graph.shape b))
    (hFits : axes.Fits scope.live (x.graph.shape id)) {pairs : List (Nat × Nat × Index)}
    {l r : SourcedExpr}
    (hBound : contractedIndices (x.graph.shape a) (x.graph.shape b)
      (paired.lhsContract.zip paired.rhsContract) scope = (pairs, inner))
    (hLhs : recur inner a (contractedAxes (x.graph.shape a) paired.lhsBatch
      (paired.lhsFree (x.graph.shape a).rank) paired.lhsBatch.length
      (pairs.map fun y => (y.1, y.2.2)) axes) = .ok l)
    (hRhs : recur inner b (contractedAxes (x.graph.shape b) paired.rhsBatch
      (paired.rhsFree (x.graph.shape b).rank)
      (paired.lhsBatch.length + (paired.lhsFree (x.graph.shape a).rank).length)
      (pairs.map fun y => (y.2.1, y.2.2)) axes) = .ok r) :
    x.Hygienic scope.live id (summation id (pairs.map (·.2.2)) (.binary .mul l r)) := by
  rw [hShape] at hFits
  have hBinds := bindsPairs_contractedIndices hPairable hLetters
  have hLength := length_contractedIndices hPairable scope
  rw [hBound] at hBinds hLength
  have hInner : inner.letters ≠ [] := hBinds.opens.letters_eq ▸ hLetters
  -- The operands are built in the inner scope, where the new indices are in use.
  have hL := hRecur a ha _ _ l hInner
    (placeable_lhs hPairable hFits hBinds).fits_contractedAxes hLhs
  have hR := hRecur b hb _ _ r hInner
    (placeable_rhs hPairable hFits hBinds).fits_contractedAxes hRhs
  refine ⟨scoped_summation hBinds.opens ⟨hL.inScope, hR.inScope⟩, ?_⟩
  exact .contract hOp hExpands hL.writes hR.writes hLength
    (by rw [← hPairable.contract_extent]; exact hLength)

/-- The formulas of contributions, one after the other. -/
theorem contributions_hygienic (hRecur : RecurHygienic x recur id)
    (hLetters : scope.letters ≠ []) {out : Shape} (hFits : axes.Fits scope.live out)
    {terms : List ValueId} (hLt : ∀ w ∈ terms, w < id)
    (hBelow : ∀ w ∈ terms, (x.graph.shape w).Below out) {built : List SourcedExpr}
    (h : List.Forall₂ (fun w t => x.elementwise recur scope out axes w = .ok t) terms built) :
    List.Forall₂ (x.Hygienic scope.live) terms built := by
  induction h with
  | nil => exact .nil
  | @cons w t terms ts hOne _ ih =>
    exact .cons (elementwise_hygienic hRecur hLetters hFits (hLt w List.mem_cons_self)
        (hBelow w List.mem_cons_self) hOne)
      (ih (fun u hu => hLt u (List.mem_cons_of_mem _ hu))
        (fun u hu => hBelow u (List.mem_cons_of_mem _ hu)))

/-- An accumulation has at least two contributions. -/
private theorem two_le_length_accumulationTerms {g : Graph} (hGraph : g.WellFormed)
    (names : NameTable) {v : ValueId} (h : isAccumulation g v = true) :
    2 ≤ (accumulationTerms g v names).length := by
  obtain ⟨tree, hTree, hTerms⟩ :=
    Graph.exists_accumulationTree hGraph.ordered hGraph.sumsFit names v
  rw [hTerms]
  cases hTree with
  | term hNot => exact absurd ⟨h, Or.inl rfl⟩ hNot
  | @sum _ _ _ left right =>
    rw [SumTree.frontier, List.length_append]
    exact Nat.add_le_add left.length_frontier_pos right.length_frontier_pos

theorem accumulate_hygienic (hGraph : x.graph.WellFormed) (hRecur : RecurHygienic x recur id)
    (hLetters : scope.letters ≠ []) {operands : List ValueId}
    (hOp : x.graph.op? id = some (.accumulate, operands)) (hExpands : x.Expands id)
    (hFits : axes.Fits scope.live (x.graph.shape id)) {built : List SourcedExpr}
    (h : List.Forall₂ (fun w t => x.elementwise recur scope (x.graph.shape id) axes w = .ok t)
      (accumulationTerms x.graph id x.names) built)
    (hFormula : built = [f] ∨ f = .terms built) : x.Hygienic scope.live id f := by
  have hAccumulation : isAccumulation x.graph id = true := by
    rw [isAccumulation, hOp]
  -- Where contributions come from does not depend on what the arrays hold.
  let anyReading : Interpretation Int :=
    ⟨fun _ => 0, fun _ _ => 0, fun _ _ => 0, fun _ _ => 0, fun _ _ _ => 0, fun _ _ _ _ => 0⟩
  have hSums := accumulationTerms_sumsTo anyReading 0 x.names hGraph hAccumulation
  have hLt := lt_of_mem_accumulationTerms hGraph.ordered x.names hAccumulation
  have hAll := contributions_hygienic hRecur hLetters hFits hLt hSums.below h
  obtain rfl : f = .terms built := by
    refine hFormula.resolve_left fun hSingle => ?_
    have hTwo := two_le_length_accumulationTerms hGraph x.names hAccumulation
    rw [hAll.length_eq, hSingle] at hTwo
    exact absurd hTwo (by simp)
  refine ⟨SourcedExpr.scopedEach_iff.mpr ?_, .terms hOp hExpands hAll.length_eq.symm ?_⟩
  · intro t ht
    obtain ⟨w, -, hHygienic⟩ := exists_beside_of_forall₂ hAll ht
    exact hHygienic.inScope
  · intro y hy
    exact ((List.forall₂_iff_zip.mp hAll).2 hy).writes

/-- Each operation makes hygienic formulas from those of the operands. -/
theorem fittedStep_hygienic (hGraph : x.graph.WellFormed) (hRecur : RecurHygienic x recur id)
    (hLetters : scope.letters ≠ []) {op : Operation} {operands : List ValueId}
    (hGet : x.graph.get? id = some ⟨.op op operands, x.graph.shape id⟩) (hExpands : x.Expands id)
    (hFits : axes.Fits scope.live (x.graph.shape id))
    (h : x.FittedStep recur scope id axes op operands f) : x.Hygienic scope.live id f := by
  have hOp := Graph.op?_of_get? hGet
  cases h with
  | arith ha hb hBroadcast hLhs hRhs =>
    obtain ⟨hL, hR⟩ :=
      elementwisePair_hygienic hRecur hLetters hFits ha hb hBroadcast hLhs hRhs
    exact ⟨⟨hL.inScope, hR.inScope⟩, .arith hOp hExpands hL.writes hR.writes⟩
  | indicator ha hb hBroadcast hLhs hRhs =>
    obtain ⟨hL, hR⟩ :=
      elementwisePair_hygienic hRecur hLetters hFits ha hb hBroadcast hLhs hRhs
    exact ⟨⟨hL.inScope, hR.inScope⟩, .indicator hOp hExpands hL.writes hR.writes⟩
  | accumulate hBuilt hFormula =>
    exact accumulate_hygienic hGraph hRecur hLetters hOp hExpands hFits hBuilt hFormula
  | neg ha hShape hOperand =>
    have hA := elementwise_hygienic hRecur hLetters hFits ha (hShape ▸ .refl _) hOperand
    exact ⟨hA.inScope, .neg hOp hExpands hA.writes⟩
  | call ha hShape hOperand =>
    have hA := elementwise_hygienic hRecur hLetters hFits ha (hShape ▸ .refl _) hOperand
    exact ⟨hA.inScope, .call hOp hExpands hA.writes⟩
  | contract ha hb hPairable hShape hBound hLhs hRhs =>
    exact contract_hygienic hRecur hLetters ha hb hOp hExpands hPairable hShape hFits hBound hLhs
      hRhs
  | reduceSum ha hLt hNodup hShape hBody =>
    exact reduce_hygienic hRecur hLetters ha hOp hExpands hLt hNodup hShape hFits hBody
  | broadcast ha hStretches hOperand =>
    exact same_hygienic hRecur hLetters hOp hExpands rfl rfl ha
      (fits_broadcastAxes hFits hStretches) hOperand
  | transpose ha hPermutation hLength hShape hOperand =>
    exact same_hygienic hRecur hLetters hOp hExpands rfl rfl ha
      (fits_transposeAxes hPermutation hLength (hShape ▸ hFits)) hOperand
  | reshape ha hSame hOperand =>
    exact same_hygienic hRecur hLetters hOp hExpands rfl rfl ha (fits_reshapeAxes hSame hFits)
      hOperand
  | cast ha hShape hOperand =>
    exact same_hygienic hRecur hLetters hOp hExpands rfl rfl ha (hShape ▸ hFits) hOperand

end Rules

/-- What is built with enough fuel is hygienic. -/
theorem buildWithin_hygienic (hGraph : x.graph.WellFormed) {fuel id : Nat}
    (hFuel : id < fuel ∨ x.graph.size ≤ id) {scope : IndexScope} (hLetters : scope.letters ≠ [])
    {axes : Axes} (hFits : axes.Fits scope.live (x.graph.shape id)) {f : SourcedExpr}
    (h : x.buildWithin fuel scope id axes = .ok f) : x.Hygienic scope.live id f := by
  induction fuel using Nat.strong_induction_on generalizing id scope axes f with
  | _ fuel ih =>
    cases buildStep_of_buildWithin h with
    | symbol hNot hSymbol =>
      exact ⟨scoped_reference hFits id _, .symbol hNot hSymbol hFits.length_indices⟩
    | missing hGet hExpands =>
      -- What is not there has no axes, and so no indices.
      have hShape : x.graph.shape id = [] := by
        rw [Graph.shape, hGet]
        rfl
      obtain rfl : axes = [] :=
        List.length_eq_zero_iff.mp (hFits.length_eq.trans (by rw [hShape]; rfl))
      exact ⟨scoped_reference hFits id _, .missing hGet hExpands⟩
    | input hGet hExpands =>
      have hLength := hFits.length_indices
      rw [Graph.shape_of_get? hGet] at hLength
      exact ⟨scoped_reference hFits id _, .input hGet hExpands hLength⟩
    | literal hGet hExpands => exact ⟨trivial, .literal hGet hExpands⟩
    | exhausted hGet hExpands =>
      have hId := hFuel.resolve_right (Nat.not_le.mpr (Graph.lt_size_of_get? hGet))
      exact absurd hId (Nat.not_lt_zero _)
    | @operation fuel _ _ s _ _ hGet hExpands hRule hStep =>
      have hId := hFuel.resolve_right (Nat.not_le.mpr (Graph.lt_size_of_get? hGet))
      obtain rfl : x.graph.shape id = s := Graph.shape_of_get? hGet
      refine fittedStep_hygienic hGraph ?_ hLetters hGet hExpands hFits
        (fittedStep_of_ruleStep hGraph hGet hRule hStep)
      intro w hw scope' axes' f' hLetters' hAxes hBuild
      exact ih fuel (Nat.lt_succ_self fuel)
        (Or.inl (Nat.lt_of_lt_of_le hw (Nat.lt_succ_iff.mp hId))) hLetters' hAxes hBuild

/-- **A built formula is scoped and follows the graph.** -/
theorem build_hygienic (hGraph : x.graph.WellFormed) (hLetters : scope.letters ≠ [])
    (hFits : axes.Fits scope.live (x.graph.shape id)) (h : x.build scope id axes = .ok f) :
    x.Hygienic scope.live id f :=
  buildWithin_hygienic hGraph (Nat.lt_or_ge id x.graph.size) hLetters hFits h

end Expansion

/-! ## Equations -/

/-- What stays the same while the right-hand side of a planned equation is built. A root that
has another symbol than the equation's is not expanded. -/
def EquationPlan.expansion (p : EquationPlan) (g : Graph) (names : NameTable) : Expansion :=
  ⟨g, names, if (names.symbol? p.root).any (· ≠ p.symbol) then none else some p.root⟩

/-- The equation says what was planned. Its left-hand side has an index of its own for each axis
of the root with an extent other than one, and every index on the right is on the left or bound
by a summation. The right-hand side follows the graph. -/
structure EquationPlan.Hygienic (p : EquationPlan) (g : Graph) (names : NameTable)
    (e : Equation) : Prop where
  kind_eq : e.kind = p.kind
  symbol_eq : e.lhs.symbol = p.symbol
  nodup : e.lhs.indices.Nodup
  length_eq : e.lhs.indices.length = (g.shape p.root).nonSingleton.length
  inScope : e.rhs.Scoped e.lhs.indices
  writes : ∃ f, f.expr = e.rhs ∧ (p.expansion g names).Writes p.root f

namespace Builder

theorem rightHandSide_hygienic {b : Builder} (hGraph : b.graph.WellFormed) (p : EquationPlan)
    {scope : IndexScope} (hLetters : scope.letters ≠ []) {axes : Axes}
    (hFits : axes.Fits scope.live (b.graph.shape p.root)) {f : SourcedExpr}
    (h : b.rightHandSide p.symbol p.root scope axes = .ok f) :
    (p.expansion b.graph b.names).Hygienic scope.live p.root f := by
  rcases rightHandSide_eq_ok h with ⟨hOwn, hBuild⟩ | ⟨own, hOwn, hOther, rfl⟩
  · have hSame : (b.names.symbol? p.root).any (· ≠ p.symbol) = false := by
      cases hGiven : b.names.symbol? p.root with
      | none => rfl
      | some own => simp [hOwn own hGiven]
    rw [EquationPlan.expansion, if_neg (ne_true_of_eq_false hSame)]
    exact Expansion.build_hygienic hGraph hLetters hFits hBuild
  · rw [EquationPlan.expansion, if_pos (by simpa [hOwn] using hOther)]
    refine ⟨hFits.indices_mem, .symbol ?_ hOwn hFits.length_indices⟩
    rintro (hRoot | hNone)
    · exact absurd hRoot (by simp)
    · exact absurd (hOwn.symm.trans hNone) (by simp)

/-- An equation that is built is hygienic. -/
theorem equation_hygienic {b : Builder} (hGraph : b.graph.WellFormed)
    (hLetters : b.scope.letters ≠ []) (hLive : b.scope.live = []) (p : EquationPlan)
    {e : Equation} (h : (b.equation p.kind p.symbol p.root).1 = .ok e) :
    p.Hygienic b.graph b.names e := by
  have hOpens := freeIndices_opens (b.graph.shape p.root) b.scope hLetters
  have hFits := freeIndices_fits (b.graph.shape p.root) b.scope hLetters
  obtain ⟨axes, inner, f, hAxes, hRhs, rfl, -⟩ := equation_eq_ok h
  rw [hAxes] at hOpens hFits
  have hInner : inner.letters ≠ [] := hOpens.letters_eq ▸ hLetters
  have hHygienic := rightHandSide_hygienic hGraph p hInner hFits hRhs
  have hScope : inner.live = axes.indices := by
    rw [hOpens.live_eq, hLive, List.nil_append]
  refine ⟨rfl, rfl, hOpens.nodup, hFits.length_indices, ?_, f, rfl, hHygienic.writes⟩
  exact hScope ▸ hHygienic.inScope

end Builder

/-- Equations that are built one after the other all start with no index in scope. -/
theorem buildPlanned_hygienic {b : Builder} (hGraph : b.graph.WellFormed)
    (hLetters : b.scope.letters ≠ []) (hLive : b.scope.live = []) {plans : List EquationPlan}
    {program : Program} (h : buildPlanned b plans = .ok program) :
    List.Forall₂ (fun p e => p.Hygienic b.graph b.names e) plans program :=
  (buildPlanned_each hLetters h).imp fun p _ hOne =>
    Builder.equation_hygienic hGraph hLetters hLive p hOne

/-- **Index hygiene.** For an imported trace, any symbols and any alphabet, the equations of a
program are those that are planned for it, in order, and all are hygienic. -/
theorem buildProgram_hygienic {draft : TraceDraft} {t : Trace}
    (hTrace : Trace.ofDraft draft = .ok t) {names : NameTable} {threading : Threading}
    {options : Options} {program : Program}
    (h : buildProgram t names threading options = .ok program) :
    List.Forall₂ (fun p e => p.Hygienic t.graph names e) (planProgram t names threading)
      program :=
  buildPlanned_hygienic (b := Builder.new t.graph names options.indexAlphabet)
    (Trace.wellFormed_of_ofDraft hTrace).graph (alphabetLetters_ne_nil _) rfl h

/-- A document of a matrix product whose columns are added up. -/
def columnSumDraft : TraceDraft where
  name := "f"
  arguments := [⟨0, some "x", false⟩, ⟨1, some "w", false⟩]
  values :=
    [.leaf 0 [2, 3], .leaf 1 [3, 2],
      .op 2 "dot_general" [0, 1] [2, 2] { lhsContract := some [1], rhsContract := some [0] },
      .op 3 "reduce_sum" [2] [2] { axes := some [0] }]
  bindings := []
  tags := []
  outputs := [3]

/-- The trace of that document. -/
def columnSumTrace : Trace where
  name := "f"
  graph :=
    ⟨#[⟨.leaf, [2, 3]⟩, ⟨.leaf, [3, 2]⟩, ⟨.op (.contract ⟨[1], [0], [], []⟩) [0, 1], [2, 2]⟩,
      ⟨.op (.reduceSum [0]) [2], [2]⟩]⟩
  arguments := [⟨0, some "x", false⟩, ⟨1, some "w", false⟩]
  bindings := []
  tags := []
  outputs := [3]

/-- The symbols of the document's arguments. -/
def columnSumNames : NameTable := ⟨[(0, .plain "x"), (1, .plain "w")], [], .plain "f"⟩

/-- Nothing of the document is a derivative. -/
def columnSumThreading : Threading := ⟨[], [], .plain "f", "d", "\\delta "⟩

/-- The one equation of the document is hygienic: of its two nested sums neither binds the index of
the column, nor the index of the other. -/
theorem buildProgram_hygienic_columnSum :
    Trace.ofDraft columnSumDraft = .ok columnSumTrace ∧
      ∃ (p : EquationPlan) (e : Equation) (body : Expr),
        buildProgram columnSumTrace columnSumNames columnSumThreading {} = .ok [e] ∧
        planProgram columnSumTrace columnSumNames columnSumThreading = [p] ∧
        p.Hygienic columnSumTrace.graph columnSumNames e ∧
        e.lhs.indices = [⟨'i', 0⟩] ∧ e.rhs = .sum [⟨'j', 0⟩] (.sum [⟨'k', 0⟩] body) := by
  have hTrace : Trace.ofDraft columnSumDraft = .ok columnSumTrace := by decide
  have hAll := @buildProgram_hygienic columnSumDraft columnSumTrace hTrace columnSumNames
    columnSumThreading {} _ rfl
  cases hAll with
  | cons hFirst _ => exact ⟨hTrace, _, _, _, rfl, rfl, hFirst, rfl, rfl⟩

end ArrayEquations
