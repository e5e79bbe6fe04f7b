import ArrayEquations.Proofs.DerivedRecorder
import ArrayEquations.Proofs.EquationSoundness
import ArrayEquations.Proofs.SymbolTables

/-!
# ArrayEquations — the symbols of formulas

A formula is built from the symbols of the table. No rule of an operation brings a symbol of its
own, and where an input is expanded because the equation is about it, it is written as its
symbol all the same. So when all inputs have symbols, only the table decides which symbols
occur.

## Main definitions

* `Expr.symbols` — the symbols in a formula.

## Main results

* `Expansion.allSymbols_buildWithin` — the symbols of a built formula are those of the table.
* `Builder.allSymbols_equation` — and so are those on the right of an equation.
-/

namespace ArrayEquations

/-! ## The symbols of a formula -/

namespace Expr

mutual

/-- The symbols in a formula, in order. -/
def symbols : Expr → List Symbol
  | .var r => [r.symbol]
  | .literal _ => []
  | .binary _ lhs rhs => lhs.symbols ++ rhs.symbols
  | .neg e => e.symbols
  | .call _ argument => argument.symbols
  | .indicator _ lhs rhs => lhs.symbols ++ rhs.symbols
  | .sum _ body => body.symbols
  | .terms ts => symbolsEach ts

/-- The symbols in formulas, in order. -/
def symbolsEach : List Expr → List Symbol
  | [] => []
  | t :: ts => t.symbols ++ symbolsEach ts

end

end Expr

/-- Every symbol in the formula satisfies the predicate. -/
def SourcedExpr.AllSymbols (P : Symbol → Prop) (f : SourcedExpr) : Prop :=
  ∀ s ∈ f.expr.symbols, P s

namespace SourcedExpr

variable {P : Symbol → Prop} {l r f : SourcedExpr}

theorem allSymbols_reference (source : ValueId) {symbol : Symbol} {axes : Axes} (h : P symbol) :
    (reference source symbol axes).AllSymbols P := by
  intro s hs
  obtain rfl := List.mem_singleton.mp hs
  exact h

theorem allSymbols_literal (c : Float) : (literal c).AllSymbols P :=
  fun _ hs => absurd hs List.not_mem_nil

theorem allSymbols_pair (hl : l.AllSymbols P) (hr : r.AllSymbols P) :
    ∀ s ∈ l.expr.symbols ++ r.expr.symbols, P s := by
  intro s hs
  rcases List.mem_append.mp hs with hs | hs
  · exact hl s hs
  · exact hr s hs

theorem allSymbols_summation {id : ValueId} {indices : List Index} (h : f.AllSymbols P) :
    (summation id indices f).AllSymbols P := by
  unfold summation
  split
  · exact h
  · exact h

theorem allSymbols_terms {ts : List SourcedExpr} (h : ∀ t ∈ ts, t.AllSymbols P) :
    (terms ts).AllSymbols P := by
  have hEach : ∀ s ∈ Expr.symbolsEach (exprEach ts), P s := by
    induction ts with
    | nil => exact fun s hs => absurd hs List.not_mem_nil
    | cons t ts ih =>
      intro s hs
      rcases List.mem_append.mp hs with hs | hs
      · exact h t List.mem_cons_self s hs
      · exact ih (fun u hu => h u (List.mem_cons_of_mem t hu)) s hs
  exact hEach

end SourcedExpr

/-! ## The symbols of a right-hand side -/

/-- An operation with a rule has its operands before it, also those that are asked for and not
there; the rule of accumulations is theirs alone. -/
theorem Graph.Founded.operands_of_rule {g : Graph} (h : g.Founded) {v : ValueId} {op : Operation}
    {operands : List ValueId} {s : Shape} (hGet : g.get? v = some ⟨.op op operands, s⟩)
    {rule : Rule} (hRule : op.rule? = some rule) :
    (∀ k, operands.getD k 0 < v) ∧ (rule = .accumulate → isAccumulation g v = true) := by
  have hBefore := h.before hGet
  have hNonempty : operands ≠ [] := h.nonempty hGet (by
    rintro name rfl
    exact absurd hRule (by simp [Operation.rule?]))
  obtain ⟨w, hw⟩ := List.exists_mem_of_ne_nil _ hNonempty
  refine ⟨getD_lt_of_forall_lt (Nat.zero_lt_of_lt (hBefore w hw)) hBefore, ?_⟩
  rintro rfl
  cases op with
  | accumulate => rw [isAccumulation, Graph.op?_of_get? hGet]
  | _ => exact absurd hRule (by simp [Operation.rule?])

namespace Expansion

variable {x : Expansion} {P : Symbol → Prop}

/-- What is built for the values before a value has only symbols that satisfy the predicate. -/
def RecurAll (P : Symbol → Prop) (recur : Recur) (id : ValueId) : Prop :=
  ∀ w < id, ∀ (scope : IndexScope) (axes : Axes) (f : SourcedExpr),
    recur scope w axes = .ok f → f.AllSymbols P

/-- A rule brings no symbol of its own. -/
theorem allSymbols_ruleStep (hGraph : x.graph.Ordered) {recur : Recur} {id : ValueId}
    (hRecur : RecurAll P recur id) {rule : Rule} {operands : List ValueId}
    (hOperands : ∀ k, operands.getD k 0 < id)
    (hAccumulate : rule = .accumulate → isAccumulation x.graph id = true)
    {scope : IndexScope} {shape : Shape} {axes : Axes} {f : SourcedExpr}
    (h : x.RuleStep recur scope id operands shape axes rule f) : f.AllSymbols P := by
  have hFirst := hRecur _ (hOperands 0)
  have hSecond := hRecur _ (hOperands 1)
  cases h with
  | elide hOperand => exact hFirst _ _ _ hOperand
  | reshape _ hOperand => exact hFirst _ _ _ hOperand
  | operator hLhs hRhs =>
    exact SourcedExpr.allSymbols_pair (hFirst _ _ _ hLhs) (hSecond _ _ _ hRhs)
  | @negate e hOperand => exact hFirst _ _ e hOperand
  | @call _ e hOperand => exact hFirst _ _ e hOperand
  | indicator hLhs hRhs =>
    exact SourcedExpr.allSymbols_pair (hFirst _ _ _ hLhs) (hSecond _ _ _ hRhs)
  | contract _ hLhs hRhs =>
    exact SourcedExpr.allSymbols_summation
      (SourcedExpr.allSymbols_pair (hFirst _ _ _ hLhs) (hSecond _ _ _ hRhs))
  | reduce hBody => exact SourcedExpr.allSymbols_summation (hFirst _ _ _ hBody)
  | broadcast hOperand => exact hFirst _ _ _ hOperand
  | transpose hOperand => exact hFirst _ _ _ hOperand
  | @accumulate built _ hBuilt hFormula =>
    -- The contributions of an accumulation lie further back than its operands do.
    have hTerms : ∀ t ∈ built, t.AllSymbols P := by
      intro t ht
      obtain ⟨w, hw, hOne⟩ := exists_beside_of_forall₂ hBuilt ht
      exact hRecur w (lt_of_mem_accumulationTerms hGraph x.names (hAccumulate rfl) w hw) _ _ t hOne
    rcases hFormula with rfl | rfl
    · exact hTerms _ List.mem_cons_self
    · exact SourcedExpr.allSymbols_terms hTerms

/-- **The symbols of a built formula are symbols of the table**, provided that all inputs have
one. -/
theorem allSymbols_buildWithin (hGraph : x.graph.Founded)
    (hInputs : ∀ v, x.graph.isLeaf v = true → x.names.hasSymbol v = true)
    (hSymbols : ∀ v s, x.names.symbol? v = some s → P s) {fuel id : Nat} (hFuel : id < fuel)
    (hSize : id < x.graph.size) {scope : IndexScope} {axes : Axes} {f : SourcedExpr}
    (h : x.buildWithin fuel scope id axes = .ok f) : f.AllSymbols P := by
  -- The induction is on the fuel, which bounds the value; a rule asks for earlier values only.
  induction fuel using Nat.strong_induction_on generalizing id scope axes f with
  | _ fuel ih =>
    cases buildStep_of_buildWithin h with
    | symbol hNot hSymbol => exact SourcedExpr.allSymbols_reference id (hSymbols id _ hSymbol)
    | missing hGet hExpands =>
      obtain ⟨value, hValue⟩ := Graph.exists_get? hSize
      exact absurd (hGet.symm.trans hValue) (by simp)
    | input hGet hExpands =>
      have hLeaf : x.graph.isLeaf id = true := by
        rw [Graph.isLeaf, hGet]
        rfl
      obtain ⟨own, hOwn⟩ := NameTable.hasSymbol_iff.mp (hInputs id hLeaf)
      rw [hOwn]
      exact SourcedExpr.allSymbols_reference id (hSymbols id own hOwn)
    | literal hGet hExpands => exact SourcedExpr.allSymbols_literal _
    | exhausted hGet hExpands => exact absurd hFuel (Nat.not_lt_zero _)
    | @operation fuel _ _ _ _ _ hGet hExpands hRule hStep =>
      obtain ⟨hOperands, hAccumulate⟩ := hGraph.operands_of_rule hGet hRule
      refine allSymbols_ruleStep hGraph.ordered ?_ hOperands hAccumulate hStep
      intro u hu scope' axes' f' hBuild
      exact ih fuel (Nat.lt_succ_self fuel)
        (Nat.lt_of_lt_of_le hu (Nat.lt_succ_iff.mp hFuel)) (Nat.lt_trans hu hSize) hBuild

end Expansion

/-- The symbols on the right of an equation are symbols of the table. -/
theorem Builder.allSymbols_equation {b : Builder} {P : Symbol → Prop} (hGraph : b.graph.Founded)
    (hInputs : ∀ v, b.graph.isLeaf v = true → b.names.hasSymbol v = true)
    (hSymbols : ∀ v s, b.names.symbol? v = some s → P s) {p : EquationPlan}
    (hRoot : p.root < b.graph.size) {e : Equation}
    (h : (b.equation p.kind p.symbol p.root).1 = .ok e) : ∀ s ∈ e.rhs.symbols, P s := by
  obtain ⟨axes, inner, f, -, hRhs, rfl, -⟩ := equation_eq_ok h
  -- A root with a symbol of its own is written as that symbol, if it is another one.
  rcases rightHandSide_eq_ok hRhs with ⟨-, hBuild⟩ | ⟨own, hOwn, -, rfl⟩
  · exact Expansion.allSymbols_buildWithin hGraph hInputs hSymbols hRoot hRoot hBuild
  · exact SourcedExpr.allSymbols_reference p.root (hSymbols p.root own hOwn)

end ArrayEquations
