import ArrayEquations.Equations.Build
import ArrayEquations.Proofs.Permutation
import ArrayEquations.Proofs.WellFormed

/-!
# ArrayEquations — steps of building formulas

Everything that is known of a formula is known because of how it was built. This is said here once:
what the builder can make of a value, what a rule makes of the formulas of operands, and what an
equation and a program are made of. Every property of what is built is then a case analysis of
these steps, and an induction on the fuel.

## Main definitions

* `Expansion.RuleStep` — how the formula of an operation is made from formulas of its operands.
* `Expansion.FittedStep` — the same in a well-formed graph, by operation.
* `Expansion.BuildStep` — how the formula of a value is made.

## Main results

* `Expansion.ruleStep_of_applyRule`, `Expansion.fittedStep_of_ruleStep`,
  `Expansion.buildStep_of_buildWithin` — nothing else is made.
* `Builder.rightHandSide_eq_ok`, `Builder.equation_eq_ok`, `buildPlanned_cons_eq_ok` — what
  right-hand sides, equations and programs are made of.
-/

namespace ArrayEquations

namespace Expansion

/-- A value is written as its operation: it is the root, or it has no symbol. -/
def Expands (x : Expansion) (v : ValueId) : Prop :=
  x.root = some v ∨ x.names.symbol? v = none

/-! ## Operations -/

/-- The formula of an operation, by its rule, with the formulas of operands from `recur`. -/
inductive RuleStep (x : Expansion) (recur : Recur) (scope : IndexScope) (id : ValueId)
    (operands : List ValueId) (out : Shape) (axes : Axes) : Rule → SourcedExpr → Prop
  | elide {f : SourcedExpr} (h : recur scope (operands.getD 0 0) axes = .ok f) :
      RuleStep x recur scope id operands out axes .elide f
  /-- Only axes of extent one come or go. -/
  | reshape {f : SourcedExpr}
      (hSame : (x.graph.shape (operands.getD 0 0)).nonSingleton = out.nonSingleton)
      (h : recur scope (operands.getD 0 0)
        (reshapeAxes (x.graph.shape (operands.getD 0 0)) out axes) = .ok f) :
      RuleStep x recur scope id operands out axes .reshape f
  | operator {op : Arith} {l r : SourcedExpr}
      (hLhs : x.elementwise recur scope out axes (operands.getD 0 0) = .ok l)
      (hRhs : x.elementwise recur scope out axes (operands.getD 1 0) = .ok r) :
      RuleStep x recur scope id operands out axes (.operator op) (.binary op l r)
  | negate {e : SourcedExpr}
      (h : x.elementwise recur scope out axes (operands.getD 0 0) = .ok e) :
      RuleStep x recur scope id operands out axes .negate (.neg e)
  | call {fn : NamedFunction} {e : SourcedExpr}
      (h : x.elementwise recur scope out axes (operands.getD 0 0) = .ok e) :
      RuleStep x recur scope id operands out axes (.call fn) (.call fn e)
  | indicator {c : Comparison} {l r : SourcedExpr}
      (hLhs : x.elementwise recur scope out axes (operands.getD 0 0) = .ok l)
      (hRhs : x.elementwise recur scope out axes (operands.getD 1 0) = .ok r) :
      RuleStep x recur scope id operands out axes (.indicator c) (.indicator c l r)
  /-- Both operands are built in the scope that the new indices lead to. -/
  | contract {paired : ContractionAxes} {pairs : List (Nat × Nat × Index)} {inner : IndexScope}
      {l r : SourcedExpr}
      (hBound : contractedIndices (x.graph.shape (operands.getD 0 0))
        (x.graph.shape (operands.getD 1 0)) (paired.lhsContract.zip paired.rhsContract) scope =
          (pairs, inner))
      (hLhs : recur inner (operands.getD 0 0)
        (contractedAxes (x.graph.shape (operands.getD 0 0))
          ((paired.lhsBatch.zip paired.rhsBatch).map (·.1))
          (paired.lhsFree (x.graph.shape (operands.getD 0 0)).rank) paired.lhsBatch.length
          (pairs.map fun y => (y.1, y.2.2)) axes) = .ok l)
      (hRhs : recur inner (operands.getD 1 0)
        (contractedAxes (x.graph.shape (operands.getD 1 0))
          ((paired.lhsBatch.zip paired.rhsBatch).map (·.2))
          (paired.rhsFree (x.graph.shape (operands.getD 1 0)).rank)
          (paired.lhsBatch.length +
            (paired.lhsFree (x.graph.shape (operands.getD 0 0)).rank).length)
          (pairs.map fun y => (y.2.1, y.2.2)) axes) = .ok r) :
      RuleStep x recur scope id operands out axes (.contract paired)
        (summation id (pairs.map (·.2.2)) (.binary .mul l r))
  | reduce {summed : List Nat} {body : SourcedExpr}
      (h : recur (reduceAxes summed (x.graph.shape (operands.getD 0 0)).zipIdx axes scope).2.2
        (operands.getD 0 0)
        (reduceAxes summed (x.graph.shape (operands.getD 0 0)).zipIdx axes scope).1 = .ok body) :
      RuleStep x recur scope id operands out axes (.reduce summed)
        (summation id
          (reduceAxes summed (x.graph.shape (operands.getD 0 0)).zipIdx axes scope).2.1 body)
  | broadcast {dims : List Nat} {f : SourcedExpr}
      (h : recur scope (operands.getD 0 0)
        (broadcastAxes (x.graph.shape (operands.getD 0 0)) dims axes) = .ok f) :
      RuleStep x recur scope id operands out axes (.broadcast dims) f
  | transpose {permutation : List Nat} {f : SourcedExpr}
      (h : recur scope (operands.getD 0 0)
        (transposeAxes (x.graph.shape (operands.getD 0 0)) permutation axes) = .ok f) :
      RuleStep x recur scope id operands out axes (.transpose permutation) f
  /-- Contributions are built one after the other; a single one stands for itself. -/
  | accumulate {built : List SourcedExpr} {f : SourcedExpr}
      (hBuilt : List.Forall₂ (fun w t => x.elementwise recur scope out axes w = .ok t)
        (accumulationTerms x.graph id x.names) built)
      (hFormula : built = [f] ∨ f = .terms built) :
      RuleStep x recur scope id operands out axes .accumulate f

variable {x : Expansion} {scope : IndexScope} {id : ValueId} {axes : Axes} {f : SourcedExpr}

/-- A rule that gives a formula has made it from formulas of the operands. -/
theorem ruleStep_of_applyRule {recur : Recur} {rule : Rule} {operands : List ValueId} {out : Shape}
    (h : x.applyRule recur scope id rule operands out axes = .ok f) :
    x.RuleStep recur scope id operands out axes rule f := by
  -- Each rule builds its operands from left to right, so a formula gives back a formula for each.
  cases rule with
  | elide => exact .elide h
  | reshape =>
    change x.reshape recur scope id (operands.getD 0 0) out axes = .ok f at h
    unfold reshape at h
    simp only at h
    split at h
    · exact absurd h (by simp)
    · rename_i hSame
      exact .reshape (not_not.mp hSame) h
  | operator op =>
    obtain ⟨l, hLhs, h⟩ := bind_eq_ok h
    obtain ⟨r, hRhs, h⟩ := bind_eq_ok h
    obtain rfl := Except.ok.inj h
    exact .operator hLhs hRhs
  | negate =>
    obtain ⟨e, hOperand, h⟩ := bind_eq_ok h
    obtain rfl := Except.ok.inj h
    exact .negate hOperand
  | call fn =>
    obtain ⟨e, hOperand, h⟩ := bind_eq_ok h
    obtain rfl := Except.ok.inj h
    exact .call hOperand
  | indicator c =>
    obtain ⟨l, hLhs, h⟩ := bind_eq_ok h
    obtain ⟨r, hRhs, h⟩ := bind_eq_ok h
    obtain rfl := Except.ok.inj h
    exact .indicator hLhs hRhs
  | contract paired =>
    obtain ⟨l, hLhs, h⟩ := bind_eq_ok h
    obtain ⟨r, hRhs, h⟩ := bind_eq_ok h
    obtain rfl := Except.ok.inj h
    exact .contract rfl hLhs hRhs
  | reduce summed =>
    obtain ⟨body, hBody, h⟩ := bind_eq_ok h
    obtain rfl := Except.ok.inj h
    exact .reduce hBody
  | broadcast dims => exact .broadcast h
  | transpose permutation => exact .transpose h
  | accumulate =>
    obtain ⟨built, hBuilt, h⟩ := bind_eq_ok h
    refine .accumulate (forall₂_of_mapM_eq_ok hBuilt) ?_
    -- A sum of one term is written as the term.
    split at h
    · exact Or.inl (congrArg (fun t => [t]) (Except.ok.inj h))
    · exact Or.inr (Except.ok.inj h).symm

/-! ## Operations in well-formed graphs -/

/-- The formula of an operation, where the operands come before it and fit it. The operation then
settles how many operands there are, which shapes they have, and which rule applies. -/
inductive FittedStep (x : Expansion) (recur : Recur) (scope : IndexScope) (id : ValueId)
    (axes : Axes) : Operation → List ValueId → SourcedExpr → Prop
  | arith {op : Arith} {a b : ValueId} {l r : SourcedExpr} (ha : a < id) (hb : b < id)
      (hBroadcast : (x.graph.shape a).broadcast (x.graph.shape b) = .ok (x.graph.shape id))
      (hLhs : x.elementwise recur scope (x.graph.shape id) axes a = .ok l)
      (hRhs : x.elementwise recur scope (x.graph.shape id) axes b = .ok r) :
      FittedStep x recur scope id axes (.arith op) [a, b] (.binary op l r)
  | indicator {c : Comparison} {a b : ValueId} {l r : SourcedExpr} (ha : a < id) (hb : b < id)
      (hBroadcast : (x.graph.shape a).broadcast (x.graph.shape b) = .ok (x.graph.shape id))
      (hLhs : x.elementwise recur scope (x.graph.shape id) axes a = .ok l)
      (hRhs : x.elementwise recur scope (x.graph.shape id) axes b = .ok r) :
      FittedStep x recur scope id axes (.indicator c) [a, b] (.indicator c l r)
  | accumulate {operands : List ValueId} {built : List SourcedExpr} {f : SourcedExpr}
      (hBuilt : List.Forall₂
        (fun w t => x.elementwise recur scope (x.graph.shape id) axes w = .ok t)
        (accumulationTerms x.graph id x.names) built)
      (hFormula : built = [f] ∨ f = .terms built) :
      FittedStep x recur scope id axes .accumulate operands f
  | neg {a : ValueId} {e : SourcedExpr} (ha : a < id) (hShape : x.graph.shape a = x.graph.shape id)
      (h : x.elementwise recur scope (x.graph.shape id) axes a = .ok e) :
      FittedStep x recur scope id axes .neg [a] (.neg e)
  | call {fn : NamedFunction} {a : ValueId} {e : SourcedExpr} (ha : a < id)
      (hShape : x.graph.shape a = x.graph.shape id)
      (h : x.elementwise recur scope (x.graph.shape id) axes a = .ok e) :
      FittedStep x recur scope id axes (.call fn) [a] (.call fn e)
  | contract {paired : ContractionAxes} {a b : ValueId} {pairs : List (Nat × Nat × Index)}
      {inner : IndexScope} {l r : SourcedExpr} (ha : a < id) (hb : b < id)
      (hPairable : paired.Pairable (x.graph.shape a) (x.graph.shape b))
      (hShape : x.graph.shape id = paired.outShape (x.graph.shape a) (x.graph.shape b))
      (hBound : contractedIndices (x.graph.shape a) (x.graph.shape b)
        (paired.lhsContract.zip paired.rhsContract) scope = (pairs, inner))
      (hLhs : recur inner a (contractedAxes (x.graph.shape a) paired.lhsBatch
        (paired.lhsFree (x.graph.shape a).rank) paired.lhsBatch.length
        (pairs.map fun y => (y.1, y.2.2)) axes) = .ok l)
      (hRhs : recur inner b (contractedAxes (x.graph.shape b) paired.rhsBatch
        (paired.rhsFree (x.graph.shape b).rank)
        (paired.lhsBatch.length + (paired.lhsFree (x.graph.shape a).rank).length)
        (pairs.map fun y => (y.2.1, y.2.2)) axes) = .ok r) :
      FittedStep x recur scope id axes (.contract paired) [a, b]
        (summation id (pairs.map (·.2.2)) (.binary .mul l r))
  | reduceSum {summed : List Nat} {a : ValueId} {body : SourcedExpr} (ha : a < id)
      (hLt : ∀ k ∈ summed, k < (x.graph.shape a).rank) (hNodup : summed.Nodup)
      (hShape : x.graph.shape id =
        ((x.graph.shape a).axes.filter fun k => !summed.contains k).map (x.graph.shape a).extent)
      (h : recur (reduceAxes summed (x.graph.shape a).zipIdx axes scope).2.2 a
        (reduceAxes summed (x.graph.shape a).zipIdx axes scope).1 = .ok body) :
      FittedStep x recur scope id axes (.reduceSum summed) [a]
        (summation id (reduceAxes summed (x.graph.shape a).zipIdx axes scope).2.1 body)
  | broadcast {dims : List Nat} {a : ValueId} {f : SourcedExpr} (ha : a < id)
      (hStretches : (x.graph.shape a).Stretches dims (x.graph.shape id))
      (h : recur scope a (broadcastAxes (x.graph.shape a) dims axes) = .ok f) :
      FittedStep x recur scope id axes (.broadcast dims) [a] f
  | transpose {permutation : List Nat} {a : ValueId} {f : SourcedExpr} (ha : a < id)
      (hPermutation : IsPermutation permutation)
      (hLength : permutation.length = (x.graph.shape a).rank)
      (hShape : x.graph.shape id = permutation.map (x.graph.shape a).extent)
      (h : recur scope a (transposeAxes (x.graph.shape a) permutation axes) = .ok f) :
      FittedStep x recur scope id axes (.transpose permutation) [a] f
  | reshape {a : ValueId} {f : SourcedExpr} (ha : a < id)
      (hSame : (x.graph.shape a).nonSingleton = (x.graph.shape id).nonSingleton)
      (h : recur scope a (reshapeAxes (x.graph.shape a) (x.graph.shape id) axes) = .ok f) :
      FittedStep x recur scope id axes .reshape [a] f
  | cast {dtype : String} {a : ValueId} {f : SourcedExpr} (ha : a < id)
      (hShape : x.graph.shape a = x.graph.shape id) (h : recur scope a axes = .ok f) :
      FittedStep x recur scope id axes (.cast dtype) [a] f

theorem fittedStep_of_ruleStep (hGraph : x.graph.WellFormed) {recur : Recur} {op : Operation}
    {operands : List ValueId}
    (hGet : x.graph.get? id = some ⟨.op op operands, x.graph.shape id⟩) {rule : Rule}
    (hRule : op.rule? = some rule)
    (h : x.RuleStep recur scope id operands (x.graph.shape id) axes rule f) :
    x.FittedStep recur scope id axes op operands f := by
  have hBefore := hGraph.before hGet
  have hFits := hGraph.fits hGet
  -- The rule of an operation is read off its constructor, and so are the shapes it fits.
  generalize hShapes : operands.map x.graph.shape = shapes at hFits
  generalize hOut : x.graph.shape id = out at hFits
  cases hFits with
  | arith hBroadcast =>
    obtain ⟨a, b, rfl, rfl, rfl⟩ := eq_pair_of_map hShapes
    obtain rfl := Option.some.inj hRule
    cases h with
    | operator hLhs hRhs =>
      exact .arith (hBefore a (by simp)) (hBefore b (by simp)) (hOut ▸ hBroadcast) hLhs hRhs
  | indicator hBroadcast =>
    obtain ⟨a, b, rfl, rfl, rfl⟩ := eq_pair_of_map hShapes
    obtain rfl := Option.some.inj hRule
    cases h with
    | indicator hLhs hRhs =>
      exact .indicator (hBefore a (by simp)) (hBefore b (by simp)) (hOut ▸ hBroadcast) hLhs hRhs
  | accumulate =>
    obtain rfl := Option.some.inj hRule
    cases h with
    | accumulate hBuilt hFormula => exact .accumulate hBuilt hFormula
  | neg =>
    obtain ⟨a, rfl, hShape⟩ := eq_singleton_of_map hShapes
    obtain rfl := Option.some.inj hRule
    cases h with
    | negate hOperand => exact .neg (hBefore a (by simp)) (hShape.trans hOut.symm) hOperand
  | call =>
    obtain ⟨a, rfl, hShape⟩ := eq_singleton_of_map hShapes
    obtain rfl := Option.some.inj hRule
    cases h with
    | call hOperand => exact .call (hBefore a (by simp)) (hShape.trans hOut.symm) hOperand
  | contract hPairable =>
    obtain ⟨a, b, rfl, rfl, rfl⟩ := eq_pair_of_map hShapes
    obtain rfl := Option.some.inj hRule
    cases h with
    | contract hBound hLhs hRhs =>
      rw [hPairable.map_fst_batch] at hLhs
      rw [hPairable.map_snd_batch] at hRhs
      exact .contract (hBefore a (by simp)) (hBefore b (by simp)) hPairable hOut hBound hLhs hRhs
  | reduceSum hLt hNodup =>
    obtain ⟨a, rfl, rfl⟩ := eq_singleton_of_map hShapes
    obtain rfl := Option.some.inj hRule
    cases h with
    | reduce hBody => exact .reduceSum (hBefore a (by simp)) hLt hNodup hOut hBody
  | broadcast hStretches =>
    obtain ⟨a, rfl, rfl⟩ := eq_singleton_of_map hShapes
    obtain rfl := Option.some.inj hRule
    cases h with
    | broadcast hOperand =>
      exact .broadcast (hBefore a (by simp)) (hOut ▸ hStretches) hOperand
  | transpose hLength hLt hNodup =>
    obtain ⟨a, rfl, rfl⟩ := eq_singleton_of_map hShapes
    obtain rfl := Option.some.inj hRule
    cases h with
    | transpose hOperand =>
      exact .transpose (hBefore a (by simp)) ⟨hLength ▸ hLt, hNodup⟩ hLength hOut hOperand
  | reshape hSize =>
    obtain ⟨a, rfl, rfl⟩ := eq_singleton_of_map hShapes
    obtain rfl := Option.some.inj hRule
    cases h with
    | reshape hSame hOperand => exact .reshape (hBefore a (by simp)) hSame hOperand
  | cast =>
    obtain ⟨a, rfl, hShape⟩ := eq_singleton_of_map hShapes
    obtain rfl := Option.some.inj hRule
    cases h with
    | elide hOperand => exact .cast (hBefore a (by simp)) (hShape.trans hOut.symm) hOperand
  | foreign => exact absurd hRule (by simp [Operation.rule?])

/-! ## Values -/

/-- The formula of a value, with the formulas of operands built with one unit of fuel less. -/
inductive BuildStep (x : Expansion) (scope : IndexScope) (id : ValueId) (axes : Axes) :
    Nat → SourcedExpr → Prop
  | symbol {fuel : Nat} {s : Symbol} (hNot : ¬ x.Expands id)
      (hSymbol : x.names.symbol? id = some s) :
      BuildStep x scope id axes fuel (reference id s axes)
  /-- A position without a value is written as itself. -/
  | missing {fuel : Nat} (hGet : x.graph.get? id = none) (hExpands : x.Expands id) :
      BuildStep x scope id axes fuel (reference id (.plain (valueText id)) axes)
  /-- An input that is the root is written as its symbol too. -/
  | input {fuel : Nat} {s : Shape} (hGet : x.graph.get? id = some ⟨.leaf, s⟩)
      (hExpands : x.Expands id) :
      BuildStep x scope id axes fuel
        (reference id ((x.names.symbol? id).getD (.plain (valueText id))) axes)
  | literal {fuel : Nat} {c : Float} {s : Shape}
      (hGet : x.graph.get? id = some ⟨.literal c, s⟩) (hExpands : x.Expands id) :
      BuildStep x scope id axes fuel (.literal c)
  /-- An operation that is nested too deep is written as its position. -/
  | exhausted {op : Operation} {operands : List ValueId} {s : Shape}
      (hGet : x.graph.get? id = some ⟨.op op operands, s⟩) (hExpands : x.Expands id) :
      BuildStep x scope id axes 0 (reference id (.plain (valueText id)) axes)
  | operation {fuel : Nat} {op : Operation} {operands : List ValueId} {s : Shape} {rule : Rule}
      {f : SourcedExpr} (hGet : x.graph.get? id = some ⟨.op op operands, s⟩)
      (hExpands : x.Expands id) (hRule : op.rule? = some rule)
      (hStep : x.RuleStep (x.buildWithin fuel) scope id operands s axes rule f) :
      BuildStep x scope id axes (fuel + 1) f

/-- What is built has been built in one of these ways. -/
theorem buildStep_of_buildWithin {fuel : Nat} (h : x.buildWithin fuel scope id axes = .ok f) :
    x.BuildStep scope id axes fuel f := by
  rw [buildWithin.eq_def] at h
  simp only at h
  -- A value other than the root that has a symbol is written as the symbol; everything else is
  -- expanded.
  split at h
  · rename_i s hSymbol
    obtain rfl := Except.ok.inj h
    split at hSymbol
    · exact absurd hSymbol (by simp)
    · rename_i hNotRoot
      refine .symbol ?_ hSymbol
      rintro (hRoot | hNone)
      · exact hNotRoot hRoot
      · exact absurd (hSymbol.symm.trans hNone) (by simp)
  · rename_i hSymbol
    have hExpands : x.Expands id := by
      split at hSymbol
      · rename_i hRoot
        exact Or.inl hRoot
      · exact Or.inr hSymbol
    split at h
    · rename_i hNone
      obtain rfl := Except.ok.inj h
      exact .missing hNone hExpands
    · rename_i value hGet
      obtain ⟨content, s⟩ := value
      simp only at h
      split at h
      · obtain rfl := Except.ok.inj h
        exact .input hGet hExpands
      · obtain rfl := Except.ok.inj h
        exact .literal hGet hExpands
      · obtain rfl := Except.ok.inj h
        exact .exhausted hGet hExpands
      · split at h
        · exact absurd h (by simp)
        · rename_i rule hRule
          exact .operation hGet hExpands hRule (ruleStep_of_applyRule h)

end Expansion

/-! ## Equations -/

namespace Builder

variable {b : Builder} {kind : EquationKind} {symbol : Symbol} {root : ValueId}

/-- A root is expanded, unless it has another symbol than the equation. -/
theorem rightHandSide_eq_ok {scope : IndexScope} {axes : Axes} {f : SourcedExpr}
    (h : b.rightHandSide symbol root scope axes = .ok f) :
    ((∀ own, b.names.symbol? root = some own → own = symbol) ∧
        Expansion.build ⟨b.graph, b.names, some root⟩ scope root axes = .ok f) ∨
      ∃ own, b.names.symbol? root = some own ∧ own ≠ symbol ∧ f = reference root own axes := by
  unfold rightHandSide at h
  simp only at h
  split at h
  · rename_i own hOwn
    split at h
    · rename_i hSame
      refine Or.inl ⟨fun own' hOwn' => ?_, h⟩
      exact (Option.some.inj (hOwn'.symm.trans hOwn)).trans hSame
    · rename_i hOther
      exact Or.inr ⟨own, hOwn, hOther, (Except.ok.inj h).symm⟩
  · rename_i hNone
    exact Or.inl ⟨fun own hOwn => absurd (hNone.symm.trans hOwn) (by simp), h⟩

/-- An equation has the new indices on its left and is built in the scope with them; afterwards
the scope is released. -/
theorem equation_eq_ok {e : Equation} (h : (b.equation kind symbol root).1 = .ok e) :
    ∃ axes inner f, freeIndices (b.graph.shape root) b.scope = (axes, inner) ∧
      b.rightHandSide symbol root inner axes = .ok f ∧
      e = ⟨kind, ⟨symbol, axes.indices⟩, f.expr⟩ ∧
      (b.equation kind symbol root).2 = { b with scope := inner.release b.scope.mark } := by
  unfold equation at h ⊢
  simp only at h ⊢
  split at h
  · exact absurd h (by simp)
  · rename_i f hRhs
    obtain rfl := Except.ok.inj h
    exact ⟨_, _, f, rfl, hRhs, rfl, rfl⟩

end Builder

/-- A program consists of the equation of the first plan and a program for the others. -/
theorem buildPlanned_cons_eq_ok {b : Builder} {p : EquationPlan} {plans : List EquationPlan}
    {program : Program} (h : buildPlanned b (p :: plans) = .ok program) :
    ∃ e es, (b.equation p.kind p.symbol p.root).1 = .ok e ∧
      buildPlanned (b.equation p.kind p.symbol p.root).2 plans = .ok es ∧ program = e :: es := by
  rw [buildPlanned] at h
  split at h
  · exact absurd h (by simp)
  · rename_i e b' hEquation
    obtain ⟨es, hRest, h⟩ := bind_eq_ok h
    rw [hEquation]
    exact ⟨e, es, rfl, hRest, (Except.ok.inj h).symm⟩

end ArrayEquations
