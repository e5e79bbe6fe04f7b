import ArrayEquations.Proofs.FormulaSymbols

/-!
# ArrayEquations — formulas in a larger graph

The formula of a value only looks at the value, at what it is computed from, and at the symbols
of these. So it stays the same when the graph gets more values and these get symbols, as long as
no value of before is renamed.

## Main definitions

* `Expansion.Extends`, `Builder.Extends` — more values, and the same symbols for those of before.

## Main results

* `Expansion.Extends.buildWithin_eq` — formulas stay the same; the fuel does not matter.
* `Builder.Extends.equation_eq` — equations do.
* `Builder.Extends.equations_eq` — and so do lists of them.
-/

namespace ArrayEquations

/-! ## Formulas -/

/-- The second expansion has more values than the first, whose values have the same symbols. -/
structure Expansion.Extends (x x' : Expansion) : Prop where
  root : x'.root = x.root
  graph : x.graph.Extends x'.graph
  symbol? : ∀ v < x.graph.size, x'.names.symbol? v = x.names.symbol? v

/-- Items that are treated alike give the same list. -/
theorem mapM_congr {ε α β : Type} {f f' : α → Except ε β} {as : List α}
    (h : ∀ a ∈ as, f' a = f a) : as.mapM f' = as.mapM f := by
  induction as with
  | nil => rfl
  | cons a as ih =>
    have hRest := ih fun a' ha' => h a' (List.mem_cons_of_mem a ha')
    rw [List.mapM_cons, List.mapM_cons, h a List.mem_cons_self, hRest]

namespace Expansion.Extends

variable {x x' : Expansion} {v id : ValueId}

theorem isAccumulation_eq (h : x.Extends x') (hv : v < x.graph.size) :
    isAccumulation x'.graph v = isAccumulation x.graph v := by
  rw [isAccumulation, isAccumulation, h.graph.op?_eq hv]

theorem hasSymbol_eq (h : x.Extends x') (hv : v < x.graph.size) :
    x'.names.hasSymbol v = x.names.hasSymbol v := by
  rw [NameTable.hasSymbol, NameTable.hasSymbol, h.symbol? v hv]

/-- Accumulations have the same contributions. -/
theorem collectTerms_eq (h : x.Extends x') (hGraph : x.graph.Ordered) (fuel : Nat)
    (hv : v < x.graph.size) :
    collectTerms x'.graph x'.names fuel v = collectTerms x.graph x.names fuel v := by
  induction fuel generalizing v with
  | zero => rfl
  | succ fuel ih =>
    rw [collectTerms, collectTerms, h.graph.operands_eq hv]
    apply List.flatMap_congr
    intro operand hOperand
    have hLt := Nat.lt_trans (hGraph v operand hOperand) hv
    rw [h.isAccumulation_eq hLt, h.hasSymbol_eq hLt, ih hLt]

theorem accumulationTerms_eq (h : x.Extends x') (hGraph : x.graph.Ordered)
    (hv : v < x.graph.size) :
    accumulationTerms x'.graph v x'.names = accumulationTerms x.graph v x.names := by
  rw [accumulationTerms, accumulationTerms, h.isAccumulation_eq hv, h.collectTerms_eq hGraph _ hv]

/-- The formula of an operation is the same if those of the values before it are. -/
theorem applyRule_eq (h : x.Extends x') (hGraph : x.graph.Ordered) (hSize : id < x.graph.size)
    {recur recur' : Recur}
    (hRecur : ∀ w < id, ∀ scope axes, recur' scope w axes = recur scope w axes) {rule : Rule}
    {operands : List ValueId} (hOperands : ∀ k, operands.getD k 0 < id)
    (hAccumulate : rule = .accumulate → isAccumulation x.graph id = true)
    (scope : IndexScope) (shape : Shape) (axes : Axes) :
    x'.applyRule recur' scope id rule operands shape axes =
      x.applyRule recur scope id rule operands shape axes := by
  have hShape : ∀ w < id, x'.graph.shape w = x.graph.shape w := fun w hw =>
    h.graph.shape_eq (Nat.lt_trans hw hSize)
  have hElementwise : ∀ w < id, ∀ axes, x'.elementwise recur' scope shape axes w =
      x.elementwise recur scope shape axes w := by
    intro w hw axes
    rw [elementwise, elementwise, hShape w hw, hRecur w hw]
  have hFirst := hOperands 0
  have hSecond := hOperands 1
  cases rule with
  | elide => exact hRecur _ hFirst scope axes
  | reshape =>
    show x'.reshape _ _ _ _ _ _ = x.reshape _ _ _ _ _ _
    simp only [reshape, hShape _ hFirst, hRecur _ hFirst]
  | operator op => simp only [applyRule, hElementwise _ hFirst, hElementwise _ hSecond]
  | negate => simp only [applyRule, hElementwise _ hFirst]
  | call f => simp only [applyRule, hElementwise _ hFirst]
  | indicator c => simp only [applyRule, hElementwise _ hFirst, hElementwise _ hSecond]
  | contract paired =>
    simp only [applyRule, contract, hShape _ hFirst, hShape _ hSecond, hRecur _ hFirst,
      hRecur _ hSecond]
  | reduce summed => simp only [applyRule, reduce, hShape _ hFirst, hRecur _ hFirst]
  | broadcast dims => simp only [applyRule, hShape _ hFirst, hRecur _ hFirst]
  | transpose permutation => simp only [applyRule, hShape _ hFirst, hRecur _ hFirst]
  | accumulate =>
    -- Both collect the same contributions, all of them earlier values.
    have hTerms := lt_of_mem_accumulationTerms hGraph x.names (hAccumulate rfl)
    simp only [applyRule, h.accumulationTerms_eq hGraph hSize]
    rw [mapM_congr fun w hw => hElementwise w (hTerms w hw) axes]

/-- **The formula of a value is the same in a larger graph.** The two expansions may also have
different fuel, if it is enough for both. -/
theorem buildWithin_eq (h : x.Extends x') (hGraph : x.graph.Founded) {fuel fuel' : Nat}
    (hFuel : id < fuel) (hFuel' : id < fuel') (hSize : id < x.graph.size) (scope : IndexScope)
    (axes : Axes) : x'.buildWithin fuel' scope id axes = x.buildWithin fuel scope id axes := by
  -- On the value: the fuels differ, and only that each is enough is known of them.
  induction id using Nat.strong_induction_on generalizing fuel fuel' scope axes with
  | _ id ih =>
    obtain ⟨fuel, rfl⟩ := Nat.exists_eq_succ_of_ne_zero (Nat.ne_of_gt (Nat.zero_lt_of_lt hFuel))
    obtain ⟨fuel', rfl⟩ := Nat.exists_eq_succ_of_ne_zero (Nat.ne_of_gt (Nat.zero_lt_of_lt hFuel'))
    rw [buildWithin.eq_def, buildWithin.eq_def]
    simp only [h.root, h.symbol? id hSize, h.graph.get?_eq id hSize]
    split
    · rfl
    · obtain ⟨⟨content, s⟩, hGet⟩ := Graph.exists_get? hSize
      rw [hGet]
      cases content with
      | leaf => rfl
      | literal c => rfl
      | op op operands =>
        simp only
        cases hRule : op.rule? with
        | none => rfl
        | some rule =>
          obtain ⟨hOperands, hAccumulate⟩ := hGraph.operands_of_rule hGet hRule
          refine h.applyRule_eq hGraph.ordered hSize ?_ hOperands hAccumulate scope s axes
          intro u hu scope' axes'
          exact ih u hu (Nat.lt_of_lt_of_le hu (Nat.lt_succ_iff.mp hFuel))
            (Nat.lt_of_lt_of_le hu (Nat.lt_succ_iff.mp hFuel')) (Nat.lt_trans hu hSize) scope' axes'

end Expansion.Extends

/-! ## Equations -/

/-- The second builder has more values than the first, whose values have the same symbols. -/
structure Builder.Extends (b b' : Builder) : Prop where
  graph : b.graph.Extends b'.graph
  symbol? : ∀ v < b.graph.size, b'.names.symbol? v = b.names.symbol? v
  scope : b'.scope = b.scope

namespace Builder.Extends

variable {b b' : Builder}

/-- The equation of a value is the same in a larger graph. -/
theorem equation_eq (h : b.Extends b') (hGraph : b.graph.Founded) (kind : EquationKind)
    (symbol : Symbol) {root : ValueId} (hRoot : root < b.graph.size) :
    (b'.equation kind symbol root).1 = (b.equation kind symbol root).1 := by
  have hExpanded : ∀ scope axes,
      Expansion.build ⟨b'.graph, b'.names, some root⟩ scope root axes =
        Expansion.build ⟨b.graph, b.names, some root⟩ scope root axes := by
    have hExtends : Expansion.Extends ⟨b.graph, b.names, some root⟩
        ⟨b'.graph, b'.names, some root⟩ := ⟨rfl, h.graph, h.symbol?⟩
    exact hExtends.buildWithin_eq hGraph hRoot (Nat.lt_of_lt_of_le hRoot h.graph.size_le) hRoot
  have hRight : ∀ scope axes,
      b'.rightHandSide symbol root scope axes = b.rightHandSide symbol root scope axes := by
    intro scope axes
    simp only [rightHandSide, h.symbol? root hRoot, hExpanded]
  simp only [equation, h.scope, h.graph.shape_eq hRoot, hRight]
  cases b.rightHandSide symbol root (freeIndices (b.graph.shape root) b.scope).2
      (freeIndices (b.graph.shape root) b.scope).1 with
  | error e => rfl
  | ok f => rfl

/-- Equations for the same plans, built in both graphs, are the same. -/
theorem equations_eq (h : b.Extends b') (hGraph : b.graph.Founded) {plans : List EquationPlan}
    (hRoot : ∀ p ∈ plans, p.root < b.graph.size) {es es' : List Equation}
    (hEach : List.Forall₂ (fun p e => (b.equation p.kind p.symbol p.root).1 = .ok e) plans es)
    (hEach' : List.Forall₂ (fun p e => (b'.equation p.kind p.symbol p.root).1 = .ok e) plans es') :
    es' = es := by
  induction hEach generalizing es' with
  | nil =>
    cases hEach'
    rfl
  | @cons p e plans es hOne _ ih =>
    cases hEach' with
    | cons hOne' hRest' =>
      have hSame := h.equation_eq hGraph p.kind p.symbol (hRoot p List.mem_cons_self)
      obtain rfl := Except.ok.inj (hOne'.symm.trans (hSame.trans hOne))
      rw [ih (fun p' hp' => hRoot p' (List.mem_cons_of_mem p hp')) hRest']

end Builder.Extends

end ArrayEquations
