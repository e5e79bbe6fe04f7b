import ArrayEquations.Proofs.DocumentTrace
import ArrayEquations.Proofs.FormulaSymbols

/-!
# ArrayEquations — indices given from outside

Who asks for the formula of a value gives the indices of its axes. Whatever operations are below
the value, an index that no summation binds is one of those. But summations bind the symbols that
the scope hands out, and the scope does not know the ones that were given: it hands out the first
symbols of the alphabet, as many as there are summed axes around a place in the formula. So no
summation captures a given index if and only if no given index is among these.

## Main definitions

* `Expr.free`, `Expr.bound` — the indices that no summation binds, and those that summations bind.
* `Expr.depth` — the number of indices that are bound around a place.
* `Expr.Draws` — a formula with indices of given axes and symbols that a scope hands out.

## Main results

* `Expansion.draws_buildWithin` — where the indices of a formula come from.
* `Builder.capture_free_iff` — when a formula with given indices captures none of them.
* `Builder.build_captures` — a given index that a summation captures.
-/

namespace ArrayEquations

/-! ## Indices of formulas -/

namespace Expr

mutual

/-- The indices that occur outside all summations that bind them, in order. -/
def free : Expr → List Index
  | .var r => r.indices
  | .literal _ => []
  | .binary _ lhs rhs => lhs.free ++ rhs.free
  | .neg e => e.free
  | .call _ argument => argument.free
  | .indicator _ lhs rhs => lhs.free ++ rhs.free
  | .sum indices body => body.free.filter (!indices.contains ·)
  | .terms ts => freeEach ts

/-- The free indices of formulas, in order. -/
def freeEach : List Expr → List Index
  | [] => []
  | t :: ts => t.free ++ freeEach ts

end

mutual

/-- The indices that summations bind, in order. -/
def bound : Expr → List Index
  | .var _ => []
  | .literal _ => []
  | .binary _ lhs rhs => lhs.bound ++ rhs.bound
  | .neg e => e.bound
  | .call _ argument => argument.bound
  | .indicator _ lhs rhs => lhs.bound ++ rhs.bound
  | .sum indices body => indices ++ body.bound
  | .terms ts => boundEach ts

/-- The indices that are bound in formulas, in order. -/
def boundEach : List Expr → List Index
  | [] => []
  | t :: ts => t.bound ++ boundEach ts

end

mutual

/-- The number of indices that are bound around a place in the formula, where it is largest. -/
def depth : Expr → Nat
  | .var _ => 0
  | .literal _ => 0
  | .binary _ lhs rhs => max lhs.depth rhs.depth
  | .neg e => e.depth
  | .call _ argument => argument.depth
  | .indicator _ lhs rhs => max lhs.depth rhs.depth
  | .sum indices body => indices.length + body.depth
  | .terms ts => depthEach ts

/-- The largest depth of formulas. -/
def depthEach : List Expr → Nat
  | [] => 0
  | t :: ts => max t.depth (depthEach ts)

end

end Expr

/-! ## Indices of operands -/

namespace Axes

variable {axes : Axes} {i : Index}

theorem mem_indices : i ∈ axes.indices ↔ some i ∈ axes := by
  rw [indices, List.mem_filterMap]
  simp

theorem mem_indices_cons {entry : Option Index} :
    i ∈ indices (entry :: axes) ↔ entry = some i ∨ i ∈ axes.indices := by
  rw [mem_indices, List.mem_cons, mem_indices, eq_comm]

theorem mem_indices_append {bound : List Index} :
    i ∈ indices (axes ++ bound.map some) ↔ i ∈ axes.indices ∨ i ∈ bound := by
  simp [mem_indices]

theorem mem_indices_of_at? {k : Nat} (h : axes.at? k = some i) : i ∈ axes.indices := by
  rw [at?, Option.join_eq_some_iff] at h
  exact mem_indices.mpr (List.mem_of_getElem? h)

theorem mem_indices_of_headD (h : axes.headD none = some i) : i ∈ axes.indices := by
  cases axes with
  | nil => exact absurd h (by simp)
  | cons entry axes =>
    obtain rfl : entry = some i := h
    exact mem_indices.mpr List.mem_cons_self

theorem mem_indices_of_tail (h : i ∈ indices axes.tail) : i ∈ axes.indices :=
  mem_indices.mpr (List.mem_of_mem_tail (mem_indices.mp h))

end Axes

theorem eq_some_of_unlessSingle {extent : Nat} {entry : Option Index} {i : Index}
    (h : unlessSingle extent entry = some i) : entry = some i := by
  unfold unlessSingle at h
  split at h
  · exact absurd h (by simp)
  · exact h

variable {axes : Axes} {i : Index}

theorem given_of_elementwiseAxes {operand out : Shape}
    (h : i ∈ (elementwiseAxes operand out axes).indices) : i ∈ axes.indices := by
  obtain ⟨_, _, hEntry⟩ := List.mem_map.mp (Axes.mem_indices.mp h)
  exact Axes.mem_indices_of_at? (eq_some_of_unlessSingle hEntry)

theorem given_of_broadcastAxes {operand : Shape} {dims : List Nat}
    (h : i ∈ (broadcastAxes operand dims axes).indices) : i ∈ axes.indices := by
  obtain ⟨_, _, hEntry⟩ := List.mem_map.mp (Axes.mem_indices.mp h)
  exact Axes.mem_indices_of_at? (eq_some_of_unlessSingle hEntry)

theorem given_of_transposeAxes {operand : Shape} {permutation : List Nat}
    (h : i ∈ (transposeAxes operand permutation axes).indices) : i ∈ axes.indices := by
  obtain ⟨axis, _, hEntry⟩ := List.mem_map.mp (Axes.mem_indices.mp h)
  split at hEntry
  · exact Axes.mem_indices_of_at? hEntry
  · exact absurd hEntry (by simp)

theorem given_of_distribute {extents : List Nat}
    (h : i ∈ Axes.indices (distribute extents axes)) : i ∈ axes.indices := by
  induction extents generalizing axes with
  | nil => exact absurd h List.not_mem_nil
  | cons extent extents ih =>
    rw [distribute] at h
    split at h
    · exact ih ((Axes.mem_indices_cons.mp h).resolve_left (by simp))
    · rcases Axes.mem_indices_cons.mp h with hHead | hRest
      · exact Axes.mem_indices_of_headD hHead
      · exact Axes.mem_indices_of_tail (ih hRest)

theorem given_of_reshapeAxes {operand out : Shape}
    (h : i ∈ (reshapeAxes operand out axes).indices) : i ∈ axes.indices := by
  obtain ⟨x, hx, hEntry⟩ := List.mem_map.mp (Axes.mem_indices.mp (given_of_distribute h))
  obtain ⟨entry, extent⟩ := x
  obtain rfl : entry = some i := hEntry
  exact Axes.mem_indices.mpr (List.of_mem_zip (List.mem_of_mem_filter hx)).1

/-- An operand of a sum over axes has given indices and bound ones. -/
theorem given_or_bound_of_reduceAxes {summed : List Nat} {numbered : List (Nat × Nat)}
    {scope : IndexScope} (h : i ∈ (reduceAxes summed numbered axes scope).1.indices) :
    i ∈ axes.indices ∨ i ∈ (reduceAxes summed numbered axes scope).2.1 := by
  induction numbered generalizing axes scope with
  | nil => exact absurd h List.not_mem_nil
  | cons x numbered ih =>
    rw [reduceAxes] at h ⊢
    split at h
    · -- a summed axis: no index for one of extent one, and a bound one otherwise
      rename_i hSummed
      rw [if_pos hSummed]
      split at h
      · rename_i hOne
        rw [if_pos hOne]
        exact ih ((Axes.mem_indices_cons.mp h).resolve_left (by simp))
      · rename_i hOne
        rw [if_neg hOne]
        rcases Axes.mem_indices_cons.mp h with hHead | hRest
        · exact Or.inr (List.mem_cons.mpr (Or.inl (Option.some.inj hHead).symm))
        · exact (ih hRest).imp_right (List.mem_cons_of_mem _)
    · -- an axis that is kept takes the next given index
      rename_i hKept
      rw [if_neg hKept]
      rcases Axes.mem_indices_cons.mp h with hHead | hRest
      · exact Or.inl (Axes.mem_indices_of_headD (eq_some_of_unlessSingle hHead))
      · exact (ih hRest).imp_left Axes.mem_indices_of_tail

/-- An operand of a contraction has given indices and bound ones. -/
theorem given_or_bound_of_contractedAxes {operand : Shape} {batch freed : List Nat} {offset : Nat}
    {contracted : List (Nat × Index)}
    (h : i ∈ (contractedAxes operand batch freed offset contracted axes).indices) :
    i ∈ axes.indices ∨ i ∈ contracted.map (·.2) := by
  obtain ⟨axis, _, hEntry⟩ := List.mem_map.mp (Axes.mem_indices.mp h)
  rw [placed, Option.join_eq_some_iff] at hEntry
  obtain ⟨before, after, hSplit, -⟩ := List.lookup_eq_some_iff.mp hEntry
  have hPlaced := List.mem_reverse.mp (hSplit ▸ List.mem_append_right before List.mem_cons_self)
  -- Batch axes and free axes get indices of the result.
  have hResult : ∀ (axesPlaced : List Nat) (offset : Nat),
      (axis, some i) ∈ axesPlaced.zipIdx.map (fun x =>
        (x.1, unlessSingle (operand.extent x.1) (axes.at? (offset + x.2)))) →
      i ∈ axes.indices := by
    intro axesPlaced offset hMem
    obtain ⟨x, _, hx⟩ := List.mem_map.mp hMem
    exact Axes.mem_indices_of_at? (eq_some_of_unlessSingle (Prod.mk.inj hx).2)
  rcases List.mem_append.mp hPlaced with hPlaced | hBound
  · rcases List.mem_append.mp hPlaced with hBatch | hFreed
    · exact Or.inl (hResult _ _ hBatch)
    · exact Or.inl (hResult _ _ hFreed)
  · obtain ⟨y, hy, hEq⟩ := List.mem_map.mp hBound
    exact Or.inr (List.mem_map.mpr ⟨y, hy, Option.some.inj (Prod.mk.inj hEq).2⟩)

/-! ## Built formulas -/

/-- The formula has free indices of the given axes only, and its summations bind the symbols that
the scope hands out next, as many as are needed at a time. -/
structure Expr.Draws (scope : IndexScope) (axes : Axes) (e : Expr) : Prop where
  free : ∀ i ∈ e.free, i ∈ axes.indices
  bound : ∀ i, i ∈ e.bound ↔ i ∈ (scope.freshMany e.depth).1

namespace Expr.Draws

variable {scope inner : IndexScope} {operandAxes : Axes} {l r e : Expr}

theorem of_not_bound {e : Expr} (hFree : ∀ i ∈ e.free, i ∈ axes.indices) (hBound : e.bound = [])
    (hDepth : e.depth = 0) : e.Draws scope axes := by
  refine ⟨hFree, fun i => ?_⟩
  rw [hBound, hDepth]
  rfl

/-- Indices of the operand's axes that are given for the operation itself. -/
theorem mono (h : e.Draws scope operandAxes)
    (hGiven : ∀ i ∈ operandAxes.indices, i ∈ axes.indices) : e.Draws scope axes :=
  ⟨fun i hi => hGiven i (h.free i hi), h.bound⟩

/-- What is built from two formulas in one scope. -/
theorem pair (hl : l.Draws scope axes) (hr : r.Draws scope axes)
    (hFree : e.free = l.free ++ r.free) (hBound : e.bound = l.bound ++ r.bound)
    (hDepth : e.depth = max l.depth r.depth) : e.Draws scope axes := by
  constructor
  · intro i hi
    rw [hFree] at hi
    exact (List.mem_append.mp hi).elim (hl.free i) (hr.free i)
  · intro i
    rw [hBound, hDepth, List.mem_append, hl.bound i, hr.bound i, scope.mem_freshMany_max]

theorem terms {ts : List SourcedExpr} (h : ∀ t ∈ ts, t.expr.Draws scope axes) :
    (SourcedExpr.terms ts).expr.Draws scope axes := by
  induction ts with
  | nil => exact of_not_bound (fun i hi => absurd hi List.not_mem_nil) rfl rfl
  | cons t ts ih =>
    have hRest := ih fun u hu => h u (List.mem_cons_of_mem t hu)
    exact (h t List.mem_cons_self).pair hRest rfl rfl rfl

/-- A summation binds symbols that the scope hands out, and its body those after them. -/
theorem sum {indices : List Index} (hHandsOut : scope.HandsOut indices inner)
    (hBody : e.Draws inner (axes ++ indices.map some)) : (Expr.sum indices e).Draws scope axes := by
  constructor
  · -- a free index of the body that is not bound here was given
    intro i hi
    obtain ⟨hFree, hNotBound⟩ := List.mem_filter.mp hi
    refine (Axes.mem_indices_append.mp (hBody.free i hFree)).resolve_right fun hMem => ?_
    rw [List.contains_iff_mem.mpr hMem] at hNotBound
    exact absurd hNotBound (by decide)
  · -- the body goes on where the summation stops
    intro i
    show i ∈ indices ++ e.bound ↔ i ∈ (scope.freshMany (indices.length + e.depth)).1
    rw [IndexScope.freshMany_add, show scope.freshMany indices.length = (indices, inner) from
      hHandsOut, List.mem_append, List.mem_append, hBody.bound i]

theorem summation {id : ValueId} {indices : List Index} {body : SourcedExpr}
    (hHandsOut : scope.HandsOut indices inner)
    (hBody : body.expr.Draws inner (axes ++ indices.map some)) :
    (summation id indices body).expr.Draws scope axes := by
  unfold ArrayEquations.summation
  split
  · rename_i hEmpty
    obtain rfl := List.isEmpty_iff.mp hEmpty
    obtain rfl : scope = inner := congrArg Prod.snd hHandsOut
    rwa [List.map_nil, List.append_nil] at hBody
  · exact sum hHandsOut hBody

end Expr.Draws

namespace Expansion

variable {x : Expansion} {recur : Recur} {scope : IndexScope}

/-- All formulas that are built have their indices from the axes given and the scope. -/
def RecurDraws (recur : Recur) : Prop :=
  ∀ (scope : IndexScope) (id : ValueId) (axes : Axes) (f : SourcedExpr),
    recur scope id axes = .ok f → f.expr.Draws scope axes

theorem draws_elementwise (hRecur : RecurDraws recur) {out : Shape} {operand : ValueId}
    {f : SourcedExpr} (h : x.elementwise recur scope out axes operand = .ok f) :
    f.expr.Draws scope axes :=
  (hRecur _ _ _ _ h).mono fun _ => given_of_elementwiseAxes

theorem draws_contract (hRecur : RecurDraws recur) {id lhs rhs : ValueId} {ls rs : Shape}
    {paired : List (Nat × Nat)} {pairs : List (Nat × Nat × Index)} {inner : IndexScope}
    (hBound : contractedIndices ls rs paired scope = (pairs, inner))
    {lhsBatch lhsFree rhsBatch rhsFree : List Nat} {m n : Nat} {l r : SourcedExpr}
    (hLhs : recur inner lhs (contractedAxes ls lhsBatch lhsFree m
      (pairs.map fun y => (y.1, y.2.2)) axes) = .ok l)
    (hRhs : recur inner rhs (contractedAxes rs rhsBatch rhsFree n
      (pairs.map fun y => (y.2.1, y.2.2)) axes) = .ok r) :
    (summation id (pairs.map (·.2.2)) (.binary .mul l r)).expr.Draws scope axes := by
  have hHandsOut := handsOut_contractedIndices ls rs paired scope
  rw [hBound] at hHandsOut
  -- Each operand has indices of the result and indices that the contraction binds.
  have hGiven : ∀ (axis : Nat × Nat × Index → Nat) {operand : Shape} {batch freed : List Nat}
      {offset : Nat}, ∀ i ∈ (contractedAxes operand batch freed offset
        (pairs.map fun y => (axis y, y.2.2)) axes).indices,
      i ∈ Axes.indices (axes ++ (pairs.map (·.2.2)).map some) := by
    intro axis operand batch freed offset i hi
    have hEither := given_or_bound_of_contractedAxes hi
    rw [List.map_map] at hEither
    exact Axes.mem_indices_append.mpr hEither
  have hLeft := (hRecur _ _ _ _ hLhs).mono (hGiven (·.1))
  have hRight := (hRecur _ _ _ _ hRhs).mono (hGiven (·.2.1))
  exact .summation hHandsOut (.pair hLeft hRight rfl rfl rfl)

/-- No rule has indices of its own but those that it binds. -/
theorem draws_ruleStep (hRecur : RecurDraws recur) {id : ValueId} {rule : Rule}
    {operands : List ValueId} {shape : Shape} {f : SourcedExpr}
    (h : x.RuleStep recur scope id operands shape axes rule f) : f.expr.Draws scope axes := by
  cases h with
  | elide hOperand => exact hRecur _ _ _ _ hOperand
  | reshape _ hOperand => exact (hRecur _ _ _ _ hOperand).mono fun i => given_of_reshapeAxes
  | operator hLhs hRhs =>
    exact .pair (draws_elementwise hRecur hLhs) (draws_elementwise hRecur hRhs) rfl rfl rfl
  | negate hOperand =>
    have hDraws := draws_elementwise hRecur hOperand
    exact ⟨hDraws.free, hDraws.bound⟩
  | call hOperand =>
    have hDraws := draws_elementwise hRecur hOperand
    exact ⟨hDraws.free, hDraws.bound⟩
  | indicator hLhs hRhs =>
    exact .pair (draws_elementwise hRecur hLhs) (draws_elementwise hRecur hRhs) rfl rfl rfl
  | contract hBound hLhs hRhs => exact draws_contract hRecur hBound hLhs hRhs
  | @reduce summed _ hBody =>
    exact .summation (handsOut_reduceAxes summed _ axes scope) ((hRecur _ _ _ _ hBody).mono
      fun i hi => Axes.mem_indices_append.mpr (given_or_bound_of_reduceAxes hi))
  | broadcast hOperand => exact (hRecur _ _ _ _ hOperand).mono fun i => given_of_broadcastAxes
  | transpose hOperand => exact (hRecur _ _ _ _ hOperand).mono fun i => given_of_transposeAxes
  | @accumulate built _ hBuilt hFormula =>
    -- Each contribution is a formula for the same axes.
    have hTerms : ∀ t ∈ built, t.expr.Draws scope axes := by
      intro t ht
      obtain ⟨w, -, hOne⟩ := exists_beside_of_forall₂ hBuilt ht
      exact draws_elementwise hRecur hOne
    rcases hFormula with rfl | rfl
    · exact hTerms _ List.mem_cons_self
    · exact .terms hTerms

private theorem draws_reference (scope : IndexScope) (axes : Axes) (source : ValueId)
    (symbol : Symbol) : (reference source symbol axes).expr.Draws scope axes :=
  .of_not_bound (fun _ hi => hi) rfl rfl

/-- **A formula has its free indices from the axes given, and its bound ones from the scope**, which
hands out as many as are bound around a place. -/
theorem draws_buildWithin (x : Expansion) (fuel : Nat) : RecurDraws (x.buildWithin fuel) := by
  -- The induction is on the fuel alone: scope and indices are arbitrary at every operand.
  induction fuel using Nat.strong_induction_on with
  | _ fuel ih =>
    intro scope id axes f h
    cases buildStep_of_buildWithin h with
    | symbol => exact draws_reference scope axes _ _
    | missing => exact draws_reference scope axes _ _
    | input => exact draws_reference scope axes _ _
    | literal => exact .of_not_bound (fun _ hi => absurd hi List.not_mem_nil) rfl rfl
    | exhausted => exact draws_reference scope axes _ _
    | operation _ _ _ hStep => exact draws_ruleStep (ih _ (Nat.lt_succ_self _)) hStep

end Expansion

namespace Builder

/-- **A formula with given indices has no other free ones, and captures none of them if and only if
none is among the first symbols of the alphabet**, of which its summations bind as many as there
are bound indices around a place. -/
theorem capture_free_iff {g : Graph} {names : NameTable} {alphabet : String} {id : ValueId}
    {axes : Axes} {e : Expr} (h : (new g names alphabet).build id axes = .ok e) :
    (∀ i ∈ e.free, i ∈ axes.indices) ∧
      (∀ i, i ∈ e.bound ↔ i ∈ IndexScope.firstSymbols (alphabetLetters alphabet) e.depth) ∧
      ((∀ i ∈ e.bound, i ∉ axes.indices) ↔
        ∀ i ∈ axes.indices, i ∉ IndexScope.firstSymbols (alphabetLetters alphabet) e.depth) := by
  have hDraws : e.Draws (IndexScope.ofAlphabet alphabet) axes := by
    change Except.map _ (Expansion.build ⟨g, names, none⟩ _ id axes) = _ at h
    cases hBuild : Expansion.build ⟨g, names, none⟩ (IndexScope.ofAlphabet alphabet) id axes with
    | error _ => exact absurd (hBuild ▸ h) (by simp [Except.map])
    | ok f => exact Except.ok.inj (hBuild ▸ h) ▸ Expansion.draws_buildWithin _ _ _ _ _ f hBuild
  have hBound : ∀ i, i ∈ e.bound ↔
      i ∈ IndexScope.firstSymbols (alphabetLetters alphabet) e.depth := by
    intro i
    rw [hDraws.bound i, IndexScope.freshMany_ofAlphabet]
  refine ⟨hDraws.free, hBound, ?_⟩
  constructor
  · exact fun hNone i hi hFirst => hNone i ((hBound i).mpr hFirst) hi
  · exact fun hNone i hi hGiven => hNone i hGiven ((hBound i).mp hi)

/-- The sums of the rows of a table. -/
def rowSums : Trace where
  name := "f"
  graph := ⟨#[⟨.leaf, [2, 3]⟩, ⟨.op (.reduceSum [1]) [0], [2]⟩]⟩
  arguments := [⟨0, some "y", false⟩]
  bindings := []
  tags := []
  outputs := [1]

/-- A row called `j` is summed over `i`. -/
theorem capture_free_second_symbol :
    ∃ e, (new rowSums.graph (resolveNames "f" rowSums.arguments []).1 defaultAlphabet).build 1
        [some ⟨'j', 0⟩] = .ok e ∧
      e = .sum [⟨'i', 0⟩] (.var ⟨.plain "y", [⟨'j', 0⟩, ⟨'i', 0⟩]⟩) ∧
      (∀ i ∈ e.free, i ∈ [⟨'j', 0⟩]) ∧ ∀ i ∈ e.bound, i ∉ [⟨'j', 0⟩] := by
  have hBuild : (new rowSums.graph (resolveNames "f" rowSums.arguments []).1
      defaultAlphabet).build 1 [some ⟨'j', 0⟩] =
      .ok (.sum [⟨'i', 0⟩] (.var ⟨.plain "y", [⟨'j', 0⟩, ⟨'i', 0⟩]⟩)) := by with_unfolding_all rfl
  obtain ⟨hFree, -, hNone⟩ := capture_free_iff hBuild
  have hOther : ∀ i ∈ Axes.indices [some ⟨'j', 0⟩],
      i ∉ IndexScope.firstSymbols (alphabetLetters defaultAlphabet) 1 := by decide +kernel
  exact ⟨_, hBuild, rfl, hFree, hNone.mpr hOther⟩

/-- **A given index is captured.** The row `i` is summed over `i`, too, so that only entries on the
diagonal of the table are left. -/
theorem build_captures :
    Trace.ofDraft rowSums.toDraft = .ok rowSums ∧
      ∃ e, (new rowSums.graph (resolveNames "f" rowSums.arguments []).1 defaultAlphabet).build 1
          [some ⟨'i', 0⟩] = .ok e ∧
        e = .sum [⟨'i', 0⟩] (.var ⟨.plain "y", [⟨'i', 0⟩, ⟨'i', 0⟩]⟩) ∧
        ∃ i ∈ e.bound, i ∈ Axes.indices [some ⟨'i', 0⟩] :=
  ⟨by decide, _, by with_unfolding_all rfl, rfl, ⟨'i', 0⟩, by decide, by decide⟩

end Builder

end ArrayEquations
