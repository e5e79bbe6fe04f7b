import ArrayEquations.Proofs.CheckedRecorder
import ArrayEquations.Proofs.ContractedAxes
import ArrayEquations.Proofs.FormulaSymbols

/-!
# ArrayEquations — formulas with every access checked

A formula is built from the values of a graph. Operands are read by their places in the list, as
many as the operation takes, and shapes are read from the graph; an operand of a contraction gets
its indices in a list as long as its rank, which is written to at the batch axes, at the free axes
and at the contracted ones. In this module these accesses are checked, and a formula that would go
on for ever has no result either. In a regular graph no access fails, whatever has a symbol and
whichever indices the value has, and every formula comes to its end.

## Main definitions

* `Checked.accumulationTerms` — the contributions to an accumulated cotangent.
* `Checked.Formula.contract`, … — the formulas of operations.
* `Checked.Formula.buildWithin` — the formula of a value.

## Main results

* `Checked.accumulationTerms_eq` — no access fails where contributions are collected.
* `Checked.Formula.matches_applyRule` — none fails in the formula of an operation.
* `Checked.Formula.matches_build` — none fails on the whole way down from a value.
-/

namespace ArrayEquations

namespace Checked

/-! ## Contributions -/

/-- Whether a value is the sum of two contributions. -/
def isAccumulation (g : Graph) (v : ValueId) : Option Bool := do
  let value ← g.get? v
  match value.op? with
  | some (.accumulate, _) => return true
  | _ => return false

/-- The contributions to the operands of a value; named accumulations stay whole. If sums are
nested deeper than the fuel allows, there is no result. -/
def collectTerms (g : Graph) (names : NameTable) : Nat → ValueId → Option (List ValueId)
  | 0, _ => none
  | fuel + 1, v => do
    let value ← g.get? v
    let collected ← value.operands.mapM fun operand => do
      let nested ← isAccumulation g operand
      if nested && !names.hasSymbol operand then collectTerms g names fuel operand
      else return [operand]
    return collected.flatten

/-- The contributions that make up a value. -/
def accumulationTerms (g : Graph) (root : ValueId) (names : NameTable) :
    Option (List ValueId) := do
  let nested ← isAccumulation g root
  if nested then collectTerms g names (root + 1) root else return [root]

section Contributions

variable {g : Graph} {names : NameTable} {v : ValueId}

theorem isAccumulation_eq (h : v < g.size) :
    isAccumulation g v = some (ArrayEquations.isAccumulation g v) := by
  obtain ⟨value, hGet⟩ := Graph.exists_get? h
  unfold isAccumulation ArrayEquations.isAccumulation
  rw [Graph.op?, hGet]
  show (match value.op? with | some (.accumulate, _) => some true | _ => some false) =
    some (match value.op? with | some (.accumulate, _) => true | _ => false)
  split <;> rfl

/-- The operands of a value come before it, so the fuel suffices. -/
theorem collectTerms_eq (hOrdered : g.Ordered) {fuel : Nat} (hFuel : v < fuel) (hv : v < g.size) :
    collectTerms g names fuel v = some (ArrayEquations.collectTerms g names fuel v) := by
  induction fuel generalizing v with
  | zero => exact absurd hFuel (Nat.not_lt_zero v)
  | succ fuel ih =>
    obtain ⟨value, hGet⟩ := Graph.exists_get? hv
    have hOperands := Graph.operands_of_get? hGet
    -- Each operand is a contribution itself, or its own contributions stand for it.
    have hEach : ∀ w ∈ value.operands, (do
        let nested ← isAccumulation g w
        if nested && !names.hasSymbol w then collectTerms g names fuel w
        else return [w] : Option (List ValueId)) =
          some (if ArrayEquations.isAccumulation g w && !names.hasSymbol w then
            ArrayEquations.collectTerms g names fuel w else [w]) := by
      intro w hw
      have hLt : w < v := hOrdered v w (hOperands ▸ hw)
      rw [isAccumulation_eq (Nat.lt_trans hLt hv)]
      show (if _ then _ else _) = _
      split
      · exact ih (Nat.lt_of_lt_of_le hLt (Nat.lt_succ_iff.mp hFuel)) (Nat.lt_trans hLt hv)
      · rfl
    rw [collectTerms, ArrayEquations.collectTerms, hGet, hOperands, List.flatMap_def]
    show Option.bind (value.operands.mapM _) _ = _
    rw [mapM_eq_some hEach]
    rfl

/-- **No access fails where contributions are collected.** -/
theorem accumulationTerms_eq (hOrdered : g.Ordered) (hv : v < g.size) :
    accumulationTerms g v names = some (ArrayEquations.accumulationTerms g v names) := by
  unfold accumulationTerms ArrayEquations.accumulationTerms
  rw [isAccumulation_eq hv]
  simp only [Option.bind_eq_bind, Option.bind_some]
  split
  · exact collectTerms_eq hOrdered (Nat.lt_succ_self v) hv
  · rfl

end Contributions

/-! ## Indices of contracted operands -/

/-- An axis with its index, which is none if the extent is one. -/
def placement? (operand : Shape) (axis : Nat) (i : Option Index) :
    Option (Nat × Option Index) := do
  let extent ← item? operand axis
  return (axis, unlessSingle extent i)

/-- The axes with the result's indices from a position on. -/
def fromResult? (operand : Shape) (placed : List Nat) (offset : Nat) (axes : Axes) :
    Option (List (Nat × Option Index)) :=
  placed.zipIdx.mapM fun (axis, k) => placement? operand axis (axes.at? (offset + k))

/-- The indices of an operand of a contraction. -/
def contractedAxes (operand : Shape) (batch free : List Nat) (offset : Nat)
    (bound : List (Nat × Index)) (axes : Axes) : Option Axes := do
  let batch ← fromResult? operand batch 0 axes
  let free ← fromResult? operand free offset axes
  fill? operand.rank none (batch ++ free ++ bound.map fun (axis, i) => (axis, some i))

/-- Whether one of two paired axes has extent one. -/
def pairsSingle? (lhs rhs : Shape) (l r : Nat) : Option Bool := do
  let x ← item? lhs l
  if x = 1 then return true
  let y ← item? rhs r
  return y == 1

/-- Brings a new index into scope for each pair of contracted axes unless one of them has
extent one. -/
def contractedIndices (lhs rhs : Shape) :
    List (Nat × Nat) → IndexScope → Option (List (Nat × Nat × Index) × IndexScope)
  | [], scope => some ([], scope)
  | (l, r) :: rest, scope => do
    let single ← pairsSingle? lhs rhs l r
    if single then contractedIndices lhs rhs rest scope
    else
      let (i, scope) := scope.fresh
      let (pairs, scope) ← contractedIndices lhs rhs rest scope
      return ((l, r, i) :: pairs, scope)

section Indices

variable {operand lhs rhs : Shape}

theorem fromResult?_eq {placed : List Nat} (h : ∀ axis ∈ placed, axis < operand.rank)
    (offset : Nat) (axes : Axes) : fromResult? operand placed offset axes =
      some (placed.zipIdx.map fun (axis, k) =>
        (axis, unlessSingle (operand.extent axis) (axes.at? (offset + k)))) := by
  refine mapM_eq_some ?_
  rintro ⟨axis, k⟩ hMem
  have hAxis : axis ∈ placed := List.fst_mem_of_mem_zipIdx hMem
  show (operand[axis]?).bind _ = _
  rw [getElem?_eq_extent (h axis hAxis)]
  rfl

/-- An operand's list of indices has room for all that are placed in it. -/
theorem contractedAxes_eq {batch free : List Nat} {bound : List (Nat × Index)}
    (hBatch : ∀ axis ∈ batch, axis < operand.rank) (hFree : ∀ axis ∈ free, axis < operand.rank)
    (hBound : ∀ x ∈ bound, x.1 < operand.rank) (offset : Nat) (axes : Axes) :
    contractedAxes operand batch free offset bound axes =
      some (ArrayEquations.contractedAxes operand batch free offset bound axes) := by
  unfold contractedAxes
  rw [fromResult?_eq hBatch, fromResult?_eq hFree]
  simp only [Option.bind_eq_bind, Option.bind_some]
  rw [fill?_eq]
  · -- An axis that nothing is placed at has no index, as one that none is placed at.
    refine congrArg some (List.map_congr_left fun axis _ => ?_)
    unfold placed
    generalize List.lookup axis _ = found
    cases found <;> rfl
  · -- Every axis that something is placed at is an axis of the operand.
    intro e he
    rcases List.mem_append.mp he with he | he
    · rcases List.mem_append.mp he with he | he
      · obtain ⟨⟨axis, k⟩, hMem, rfl⟩ := List.mem_map.mp he
        exact hBatch axis (List.fst_mem_of_mem_zipIdx hMem)
      · obtain ⟨⟨axis, k⟩, hMem, rfl⟩ := List.mem_map.mp he
        exact hFree axis (List.fst_mem_of_mem_zipIdx hMem)
    · obtain ⟨x, hx, rfl⟩ := List.mem_map.mp he
      exact hBound x hx

theorem pairsSingle?_eq {l r : Nat} (hl : l < lhs.rank) (hr : r < rhs.rank) :
    pairsSingle? lhs rhs l r = some (lhs.extent l = 1 || rhs.extent r = 1) := by
  unfold pairsSingle? item?
  rw [getElem?_eq_extent hl, getElem?_eq_extent hr]
  show (if lhs.extent l = 1 then some true else some (rhs.extent r == 1)) = _
  by_cases hSingle : lhs.extent l = 1 <;> simp [hSingle, beq_eq_decide]

theorem contractedIndices_eq {paired : List (Nat × Nat)}
    (h : ∀ x ∈ paired, x.1 < lhs.rank ∧ x.2 < rhs.rank) (scope : IndexScope) :
    contractedIndices lhs rhs paired scope =
      some (ArrayEquations.contractedIndices lhs rhs paired scope) := by
  induction paired generalizing scope with
  | nil => rfl
  | cons x paired ih =>
    obtain ⟨l, r⟩ := x
    obtain ⟨hl, hr⟩ := h (l, r) List.mem_cons_self
    have hRest := ih fun x hx => h x (List.mem_cons_of_mem _ hx)
    rw [contractedIndices, ArrayEquations.contractedIndices, pairsSingle?_eq hl hr]
    simp only [Option.bind_eq_bind, Option.bind_some]
    split
    · exact hRest scope
    · rw [hRest]
      rfl

end Indices

/-! ## Formulas -/

namespace Formula

/-- A way to build the formula of a value whose axes carry the indices given. -/
abbrev Recur := IndexScope → ValueId → Axes → Checked UnsupportedPrimitive SourcedExpr

/-- The formula of an elementwise operand. -/
def elementwise (x : Expansion) (recur : Recur) (scope : IndexScope) (out : Shape)
    (axes : Axes) (operand : ValueId) : Checked UnsupportedPrimitive SourcedExpr := do
  let shape ← shape? x.graph operand
  recur scope operand (elementwiseAxes shape out axes)

/-- The formula of a contraction. Both operands are built before it matters whether they could
be. -/
def contract (x : Expansion) (recur : Recur) (scope : IndexScope) (id : ValueId)
    (axes : ContractionAxes) (lhs rhs : ValueId) (out : Axes) :
    Checked UnsupportedPrimitive SourcedExpr := do
  let ls ← shape? x.graph lhs
  let rs ← shape? x.graph rhs
  let lhsFree := axes.lhsFree ls.rank
  let rhsFree := axes.rhsFree rs.rank
  let batch := axes.lhsBatch.length
  let paired := axes.lhsBatch.zip axes.rhsBatch
  let (pairs, inner) ← contractedIndices ls rs (axes.lhsContract.zip axes.rhsContract) scope
  let lhsAxes ← contractedAxes ls (paired.map (·.1)) lhsFree batch
    (pairs.map fun (l, _, i) => (l, i)) out
  let rhsAxes ← contractedAxes rs (paired.map (·.2)) rhsFree (batch + lhsFree.length)
    (pairs.map fun (_, r, i) => (r, i)) out
  let l ← liftM (m := Option) (recur inner lhs lhsAxes).run
  let r ← liftM (m := Option) (recur inner rhs rhsAxes).run
  return summation id (pairs.map fun (_, _, i) => i) (.binary .mul (← l) (← r))

/-- The formula of a sum over axes. -/
def reduce (x : Expansion) (recur : Recur) (scope : IndexScope) (id : ValueId)
    (axes : List Nat) (operand : ValueId) (out : Axes) :
    Checked UnsupportedPrimitive SourcedExpr := do
  let shape ← shape? x.graph operand
  let (operandAxes, bound, inner) := reduceAxes axes shape.zipIdx out scope
  return summation id bound (← recur inner operand operandAxes)

/-- The formula of a reshape. -/
def reshape (x : Expansion) (recur : Recur) (scope : IndexScope) (id operand : ValueId)
    (shape : Shape) (axes : Axes) : Checked UnsupportedPrimitive SourcedExpr := do
  let own ← shape? x.graph operand
  if own.nonSingleton ≠ shape.nonSingleton then throw (.reshape id own shape)
  else recur scope operand (reshapeAxes own shape axes)

/-- The formula of an operation by its rule. -/
def applyRule (x : Expansion) (recur : Recur) (scope : IndexScope) (id : ValueId)
    (rule : Rule) (operands : List ValueId) (shape : Shape) (axes : Axes) :
    Checked UnsupportedPrimitive SourcedExpr :=
  match rule with
  | .elide => do
    let a ← item? operands 0
    recur scope a axes
  | .reshape => do
    let a ← item? operands 0
    reshape x recur scope id a shape axes
  | .operator op => do
    let a ← item? operands 0
    let l ← elementwise x recur scope shape axes a
    let b ← item? operands 1
    let r ← elementwise x recur scope shape axes b
    return .binary op l r
  | .negate => do
    let a ← item? operands 0
    return .neg (← elementwise x recur scope shape axes a)
  | .call f => do
    let a ← item? operands 0
    return .call f (← elementwise x recur scope shape axes a)
  | .indicator c => do
    let a ← item? operands 0
    let l ← elementwise x recur scope shape axes a
    let b ← item? operands 1
    let r ← elementwise x recur scope shape axes b
    return .indicator c l r
  | .contract paired => do
    let a ← item? operands 0
    let b ← item? operands 1
    contract x recur scope id paired a b axes
  | .reduce summed => do
    let a ← item? operands 0
    reduce x recur scope id summed a axes
  | .broadcast dims => do
    let a ← item? operands 0
    let own ← shape? x.graph a
    recur scope a (broadcastAxes own dims axes)
  | .transpose permutation => do
    let a ← item? operands 0
    let own ← shape? x.graph a
    recur scope a (transposeAxes own permutation axes)
  | .accumulate => do
    let terms ← accumulationTerms x.graph id x.names
    let built ← terms.mapM (elementwise x recur scope shape axes)
    match built with
    | [single] => return single
    | built => return .terms built

/-- The formula of a value whose axes carry the indices given. If operations are nested deeper than
the fuel allows, there is no result. -/
def buildWithin (x : Expansion) : Nat → Recur
  | 0, _, _, _ => (none : Option SourcedExpr)
  | fuel + 1, scope, id, axes =>
    match (if x.root = some id then none else x.names.symbol? id) with
    | some symbol => return reference id symbol axes
    | none => do
      let value ← x.graph.get? id
      match value.content with
      | .leaf => return reference id ((x.names.symbol? id).getD (.plain (valueText id))) axes
      | .literal c => return .literal c
      | .op op operands =>
        match op.rule? with
        | none => throw (.foreign op.name id)
        | some rule => applyRule x (buildWithin x fuel) scope id rule operands value.shape axes

/-- The formula of a value whose axes carry the indices given. -/
def build (x : Expansion) : Recur := buildWithin x x.graph.size

/-! ## Rules -/

section Rules

variable {x : Expansion} {recur : Recur} {recur' : Expansion.Recur} {v a b : ValueId}

/-- No access fails in the formulas of values before a value. -/
def MatchesBefore (recur : Recur) (recur' : Expansion.Recur) (v : ValueId) : Prop :=
  ∀ w < v, ∀ (scope : IndexScope) (axes : Axes), Matches (recur scope w axes) (recur' scope w axes)

theorem matches_elementwise (h : MatchesBefore recur recur' v) (hv : v < x.graph.size)
    (ha : a < v) (scope : IndexScope) (out : Shape) (axes : Axes) :
    Matches (elementwise x recur scope out axes a) (x.elementwise recur' scope out axes a) :=
  matches_access (shape?_eq (Nat.lt_trans ha hv)) (h a ha _ _)

theorem matches_contract (h : MatchesBefore recur recur' v) (hv : v < x.graph.size)
    (ha : a < v) (hb : b < v) {axes : ContractionAxes}
    (hPairable : axes.Pairable (x.graph.shape a) (x.graph.shape b)) (scope : IndexScope)
    (out : Axes) :
    Matches (contract x recur scope v axes a b out) (x.contract recur' scope v axes a b out) := by
  have hPaired : ∀ y ∈ axes.lhsContract.zip axes.rhsContract,
      y.1 < (x.graph.shape a).rank ∧ y.2 < (x.graph.shape b).rank := fun y hy =>
    ⟨hPairable.lhs_lt _ (List.mem_append_left _ (List.of_mem_zip hy).1),
      hPairable.rhs_lt _ (List.mem_append_left _ (List.of_mem_zip hy).2)⟩
  have hBatch : ∀ y ∈ axes.lhsBatch.zip axes.rhsBatch,
      y.1 < (x.graph.shape a).rank ∧ y.2 < (x.graph.shape b).rank := fun y hy =>
    ⟨hPairable.lhs_lt _ (List.mem_append_right _ (List.of_mem_zip hy).1),
      hPairable.rhs_lt _ (List.mem_append_right _ (List.of_mem_zip hy).2)⟩
  -- Indices are bound for some of the pairs.
  have hBound : ∀ y ∈ (ArrayEquations.contractedIndices (x.graph.shape a) (x.graph.shape b)
      (axes.lhsContract.zip axes.rhsContract) scope).1,
      y.1 < (x.graph.shape a).rank ∧ y.2.1 < (x.graph.shape b).rank := by
    intro y hy
    have hMem := List.mem_map_of_mem (f := fun y => (y.1, y.2.1)) hy
    rw [map_contractedIndices] at hMem
    exact hPaired _ (List.mem_filter.mp hMem).1
  refine matches_access (shape?_eq (Nat.lt_trans ha hv)) ?_
  refine matches_access (shape?_eq (Nat.lt_trans hb hv)) ?_
  refine matches_access (contractedIndices_eq hPaired scope) ?_
  -- Batch axes, free axes and contracted axes are all axes of the operand, on either side.
  refine matches_access (contractedAxes_eq ?_ (fun _ hMem => (mem_freeAxes.mp hMem).1) ?_ _ _) ?_
  · intro axis hAxis
    obtain ⟨y, hy, rfl⟩ := List.mem_map.mp hAxis
    exact (hBatch y hy).1
  · intro y hy
    obtain ⟨z, hz, rfl⟩ := List.mem_map.mp hy
    exact (hBound z hz).1
  refine matches_access (contractedAxes_eq ?_ (fun _ hMem => (mem_freeAxes.mp hMem).1) ?_ _ _) ?_
  · intro axis hAxis
    obtain ⟨y, hy, rfl⟩ := List.mem_map.mp hAxis
    exact (hBatch y hy).2
  · intro y hy
    obtain ⟨z, hz, rfl⟩ := List.mem_map.mp hy
    exact (hBound z hz).2
  -- Both operands are built, and only then is it asked whether they could be.
  refine matches_access (h a ha _ _) (matches_access (h b hb _ _) ?_)
  refine (matches_lift _).bind fun l _ => ?_
  exact (matches_lift _).bind fun r _ => matches_pure _

theorem matches_reduce (h : MatchesBefore recur recur' v) (hv : v < x.graph.size) (ha : a < v)
    (axes : List Nat) (scope : IndexScope) (out : Axes) :
    Matches (reduce x recur scope v axes a out) (x.reduce recur' scope v axes a out) := by
  refine matches_access (shape?_eq (Nat.lt_trans ha hv)) ?_
  exact (h a ha _ _).bind fun f _ => matches_pure _

theorem matches_reshape (h : MatchesBefore recur recur' v) (hv : v < x.graph.size) (ha : a < v)
    (shape : Shape) (scope : IndexScope) (axes : Axes) :
    Matches (reshape x recur scope v a shape axes) (x.reshape recur' scope v a shape axes) := by
  refine matches_access (shape?_eq (Nat.lt_trans ha hv)) ?_
  unfold Expansion.reshape
  dsimp only
  split
  · exact matches_throw _
  · exact h a ha _ _

/-- **No access fails in the formula of an operation**: it has the operands that its rule reads. -/
theorem matches_applyRule (hRegular : x.graph.Regular) (h : MatchesBefore recur recur' v)
    {op : Operation} {operands : List ValueId} {s : Shape}
    (hGet : x.graph.get? v = some ⟨.op op operands, s⟩) {rule : Rule}
    (hRule : op.rule? = some rule) (scope : IndexScope) (axes : Axes) :
    Matches (applyRule x recur scope v rule operands s axes)
      (x.applyRule recur' scope v rule operands s axes) := by
  have hv := Graph.lt_size_of_get? hGet
  have hBefore := hRegular.before hGet
  have hReads := hRegular.reads hGet
  cases op with
  | arith | indicator =>
    obtain ⟨a, b, rfl, ha, hb⟩ := hReads.two rfl hBefore
    obtain rfl := Option.some.inj hRule
    refine matches_access rfl ((matches_elementwise h hv ha scope s axes).bind fun l _ => ?_)
    refine matches_access rfl ((matches_elementwise h hv hb scope s axes).bind fun r _ => ?_)
    exact matches_pure _
  | neg | call =>
    obtain ⟨a, rfl, ha⟩ := hReads.one rfl hBefore
    obtain rfl := Option.some.inj hRule
    refine matches_access rfl ((matches_elementwise h hv ha scope s axes).bind fun f _ => ?_)
    exact matches_pure _
  | contract paired =>
    obtain ⟨a, b, rfl, ha, hb⟩ := hReads.two rfl hBefore
    obtain rfl := Option.some.inj hRule
    have hPairable := hReads.pairable paired _ _ rfl rfl
    exact matches_access rfl (matches_access rfl (matches_contract h hv ha hb hPairable scope axes))
  | reduceSum summed =>
    obtain ⟨a, rfl, ha⟩ := hReads.one rfl hBefore
    obtain rfl := Option.some.inj hRule
    exact matches_access rfl (matches_reduce h hv ha summed scope axes)
  | broadcast | transpose =>
    obtain ⟨a, rfl, ha⟩ := hReads.one rfl hBefore
    obtain rfl := Option.some.inj hRule
    refine matches_access rfl (matches_access (shape?_eq (Nat.lt_trans ha hv)) ?_)
    exact h a ha _ _
  | reshape =>
    obtain ⟨a, rfl, ha⟩ := hReads.one rfl hBefore
    obtain rfl := Option.some.inj hRule
    exact matches_access rfl (matches_reshape h hv ha s scope axes)
  | cast =>
    obtain ⟨a, rfl, ha⟩ := hReads.one rfl hBefore
    obtain rfl := Option.some.inj hRule
    exact matches_access rfl (h a ha _ _)
  | accumulate =>
    obtain rfl := Option.some.inj hRule
    -- The contributions are read in place of the operands, and they too come before the value.
    have hAccumulation : ArrayEquations.isAccumulation x.graph v = true := by
      rw [ArrayEquations.isAccumulation, Graph.op?_of_get? hGet]
    have hLt := lt_of_mem_accumulationTerms hRegular.ordered x.names hAccumulation
    refine matches_access (accumulationTerms_eq hRegular.ordered hv) ?_
    refine (matches_mapM fun w hw => matches_elementwise h hv (hLt w hw) scope s axes).bind ?_
    intro built _
    rcases built with _ | ⟨single, _ | ⟨second, rest⟩⟩ <;> exact matches_pure _
  | foreign => exact absurd hRule (by simp [Operation.rule?])

/-- **No access fails on the way down from a value**, and the way comes to an end: rules ask for
values before their own. -/
theorem matches_buildWithin (hRegular : x.graph.Regular) {fuel : Nat} (hFuel : v < fuel)
    (hv : v < x.graph.size) (scope : IndexScope) (axes : Axes) :
    Matches (buildWithin x fuel scope v axes) (x.buildWithin fuel scope v axes) := by
  -- The induction is on the fuel, which bounds the value.
  induction fuel generalizing v scope axes with
  | zero => exact absurd hFuel (Nat.not_lt_zero v)
  | succ fuel ih =>
    obtain ⟨⟨content, s⟩, hGet⟩ := Graph.exists_get? hv
    have hBefore : MatchesBefore (buildWithin x fuel) (x.buildWithin fuel) v :=
      fun w hw scope axes => ih (Nat.lt_of_lt_of_le hw (Nat.lt_succ_iff.mp hFuel))
        (Nat.lt_trans hw hv) scope axes
    rw [buildWithin, Expansion.buildWithin]
    cases (if x.root = some v then none else x.names.symbol? v) with
    | some symbol => exact matches_pure _
    | none =>
      simp only [hGet]
      refine matches_access rfl ?_
      cases content with
      | leaf | literal c => exact matches_pure _
      | op op operands =>
        dsimp only
        cases hRule : op.rule? with
        -- A foreign operation is refused before its operands are read.
        | none => exact matches_throw _
        | some rule => exact matches_applyRule hRegular hBefore hGet hRule scope axes

theorem matches_build (hRegular : x.graph.Regular) (hv : v < x.graph.size) (scope : IndexScope)
    (axes : Axes) : Matches (build x scope v axes) (x.build scope v axes) :=
  matches_buildWithin hRegular hv hv scope axes

end Rules

end Formula

end Checked

end ArrayEquations
