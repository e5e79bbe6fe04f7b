import ArrayEquations.Proofs.FormulaSymbols
import ArrayEquations.Proofs.ImportedTrace
import ArrayEquations.Proofs.IndexStack
import ArrayEquations.Proofs.IndexHygiene
import ArrayEquations.Proofs.OutputLabels

/-!
# ArrayEquations — what cannot be written

Two kinds of operation have no formula: foreign ones, and reshapes that do more than insert or
drop axes of extent one. Having such an operation in its graph does not stop a transcription. Only
what the equations expand counts: from the root of an equation on, the operands of each value that
is written as its operation. A value that is written as its symbol is where this ends.

A run stops exactly if this walk meets an operation that cannot be written, and then the last of
its reports names one that is met. This takes for granted that the alphabet has enough symbols: a
search for one more than it has never ends.

## Main definitions

* `Graph.obstacle?` — why the operation of a value cannot be written.
* `Expansion.Reaches`, `Trace.Meets` — what the equations expand.
* `Trace.SymbolsSuffice` — the alphabet has the symbols that the equations need at once.
* `Trace.SearchesEnd` — with a bounded count of primes the equations are those of the run.
* `Run.Completed`, `Run.Stopped` — the two ways in which a run ends.

## Main results

* `Expansion.settles_buildWithin` — a formula is built, or it meets what cannot be written.
* `Trace.searchesEnd` — if the symbols suffice, every search ends.
* `Trace.run_stops_iff` — the run of an imported trace stops at what its equations meet.
-/

namespace ArrayEquations

/-- Why the operation of a value cannot be written as a formula: it is foreign, or a reshape whose
operand and result differ in their extents other than one. -/
def Graph.obstacle? (g : Graph) (v : ValueId) : Option UnsupportedPrimitive :=
  match g.op? v with
  | some (.foreign name, _) => some (.foreign name v)
  | some (.reshape, [a]) =>
    if (g.shape a).nonSingleton = (g.shape v).nonSingleton then none
    else some (.reshape v (g.shape a) (g.shape v))
  | _ => none

namespace Expansion

/-- A value that is expanded on the way down from the first one. -/
inductive Reaches (x : Expansion) : ValueId → ValueId → Prop
  | self {v : ValueId} (hExpands : x.Expands v) : Reaches x v v
  | operand {v w u : ValueId} (hExpands : x.Expands v) (hOperand : w ∈ x.graph.operands v)
      (hReaches : Reaches x w u) : Reaches x v u

/-- An operation that cannot be written is reached from the value. -/
def Meets (x : Expansion) (v : ValueId) (e : UnsupportedPrimitive) : Prop :=
  ∃ u, x.Reaches v u ∧ x.graph.obstacle? u = some e

/-- What is built from the values is there exactly if nothing is met on the way down from any of
them, and otherwise it fails for something that is met. -/
def Settles (x : Expansion) (ws : List ValueId) {α : Type} : Except UnsupportedPrimitive α → Prop
  | .ok _ => ∀ w ∈ ws, ∀ e, ¬ x.Meets w e
  | .error e => ∃ w ∈ ws, x.Meets w e

variable {x : Expansion} {v : ValueId} {e : UnsupportedPrimitive} {α β : Type}
  {m : Except UnsupportedPrimitive α} {ws ws' : List ValueId}

/-! ## One step down -/

theorem Meets.expands (h : x.Meets v e) : x.Expands v := by
  obtain ⟨u, hReaches, -⟩ := h
  cases hReaches with
  | self hExpands => exact hExpands
  | operand hExpands _ _ => exact hExpands

/-- What a value that is expanded meets, it is itself or one of its operands meets it. -/
theorem meets_iff (hExpands : x.Expands v) :
    x.Meets v e ↔ x.graph.obstacle? v = some e ∨ ∃ w ∈ x.graph.operands v, x.Meets w e := by
  constructor
  · rintro ⟨u, hReaches, hObstacle⟩
    cases hReaches with
    | self => exact Or.inl hObstacle
    | operand _ hOperand hReaches => exact Or.inr ⟨_, hOperand, u, hReaches, hObstacle⟩
  · rintro (hObstacle | ⟨w, hOperand, u, hReaches, hObstacle⟩)
    · exact ⟨v, .self hExpands, hObstacle⟩
    · exact ⟨u, .operand hExpands hOperand hReaches, hObstacle⟩

/-- The contributions of an accumulation meet what its operands meet: an accumulation that they
pass through has no symbol, and can be written. -/
theorem exists_meets_collectTerms (hGraph : x.graph.Ordered) {fuel : Nat} (hFuel : v < fuel) :
    (∃ w ∈ collectTerms x.graph x.names fuel v, x.Meets w e) ↔
      ∃ w ∈ x.graph.operands v, x.Meets w e := by
  induction fuel generalizing v with
  | zero => exact absurd hFuel (Nat.not_lt_zero v)
  | succ fuel ih =>
    -- Each operand stands for itself or for its own contributions.
    have hOne : ∀ w ∈ x.graph.operands v,
        (∃ u ∈ (if isAccumulation x.graph w && !x.names.hasSymbol w then
          collectTerms x.graph x.names fuel w else [w]), x.Meets u e) ↔ x.Meets w e := by
      intro w hw
      split
      · rename_i hNested
        obtain ⟨hAccumulation, hFree⟩ := Bool.and_eq_true_iff.mp hNested
        have hExpands : x.Expands w := Or.inr (by simpa [NameTable.hasSymbol] using hFree)
        have hNone : x.graph.obstacle? w = none := by
          unfold isAccumulation at hAccumulation
          unfold Graph.obstacle?
          split at hAccumulation
          · rename_i hOp
            rw [hOp]
          · exact absurd hAccumulation (by simp)
        rw [ih (Nat.lt_of_lt_of_le (hGraph v w hw) (Nat.lt_succ_iff.mp hFuel)),
          meets_iff hExpands, hNone]
        simp
      · simp
    rw [collectTerms]
    constructor
    · rintro ⟨u, hu, hMeets⟩
      obtain ⟨w, hw, hu⟩ := List.mem_flatMap.mp hu
      exact ⟨w, hw, (hOne w hw).mp ⟨u, hu, hMeets⟩⟩
    · rintro ⟨w, hw, hMeets⟩
      obtain ⟨u, hu, hMeets⟩ := (hOne w hw).mpr hMeets
      exact ⟨u, List.mem_flatMap.mpr ⟨w, hw, hu⟩, hMeets⟩

/-! ## Rules -/

theorem settles_ok (a : α) : x.Settles [] (.ok a) := fun _ hw => absurd hw List.not_mem_nil

/-- One formula after the other: all are built, or the first that is not fails. -/
theorem Settles.bind {f : α → Except UnsupportedPrimitive β} (h : x.Settles ws m)
    (hNext : ∀ a, x.Settles ws' (f a)) : x.Settles (ws ++ ws') (m >>= f) := by
  cases m with
  -- The first failure is the one that is reported, and it lies in the first part.
  | error e =>
    obtain ⟨w, hw, hMeets⟩ := h
    exact ⟨w, List.mem_append_left _ hw, hMeets⟩
  | ok a =>
    have hRest := hNext a
    show x.Settles (ws ++ ws') (f a)
    cases hf : f a with
    | error e =>
      rw [hf] at hRest
      obtain ⟨w, hw, hMeets⟩ := hRest
      exact ⟨w, List.mem_append_right _ hw, hMeets⟩
    | ok b =>
      rw [hf] at hRest
      intro w hw
      rcases List.mem_append.mp hw with hw | hw
      · exact h w hw
      · exact hRest w hw

/-- What is done with a formula in the end does not fail. -/
theorem Settles.map (h : x.Settles ws m) (f : α → β) :
    x.Settles ws (m >>= fun a => .ok (f a)) := by
  have hBind := h.bind fun a => settles_ok (f a)
  rwa [List.append_nil] at hBind

theorem settles_mapM {f : ValueId → Except UnsupportedPrimitive α}
    (h : ∀ w ∈ ws, x.Settles [w] (f w)) : x.Settles ws (ws.mapM f) := by
  induction ws with
  | nil => exact settles_ok []
  | cons w ws ih =>
    rw [List.mapM_cons]
    apply (h w List.mem_cons_self).bind
    intro a
    exact (ih fun u hu => h u (List.mem_cons_of_mem w hu)).map _

/-- Values that meet the same settle the same. -/
theorem Settles.congr (h : x.Settles ws m)
    (hSame : ∀ e, (∃ w ∈ ws, x.Meets w e) ↔ ∃ w ∈ ws', x.Meets w e) : x.Settles ws' m := by
  cases m with
  | error e => exact (hSame e).mp h
  | ok a =>
    intro w hw e hMeets
    obtain ⟨u, hu, hMeets⟩ := (hSame e).mpr ⟨w, hw, hMeets⟩
    exact h u hu e hMeets

/-- The operation of a value can be written, and what its operands are written as decides. -/
theorem Settles.of_operands (hExpands : x.Expands v) (hNone : x.graph.obstacle? v = none)
    (h : x.Settles (x.graph.operands v) m) : x.Settles [v] m :=
  h.congr fun e => by simp [meets_iff hExpands, hNone]

/-- The operation of a value cannot be written. -/
theorem settles_error (hExpands : x.Expands v) (hObstacle : x.graph.obstacle? v = some e) :
    x.Settles [v] (.error e : Except UnsupportedPrimitive α) :=
  ⟨v, List.mem_singleton_self v, (meets_iff hExpands).mpr (Or.inl hObstacle)⟩

/-- What is built for values before a value settles them. -/
def RecurSettles (x : Expansion) (recur : Recur) (v : ValueId) : Prop :=
  ∀ w < v, ∀ (scope : IndexScope) (axes : Axes), x.Settles [w] (recur scope w axes)

/-- Only a foreign operation or a reshape can be an obstacle. -/
theorem obstacle?_eq_none {g : Graph} {op : Operation} {operands : List ValueId}
    (hOp : g.op? v = some (op, operands)) (hForeign : ∀ name, op ≠ .foreign name)
    (hReshape : op ≠ .reshape) : g.obstacle? v = none := by
  unfold Graph.obstacle?
  rw [hOp]
  cases op with
  | foreign name => exact absurd rfl (hForeign name)
  | reshape => exact absurd rfl hReshape
  | _ => rfl

/-- The contributions to an accumulation are asked for in place of its operands. -/
theorem settles_accumulationTerms (hGraph : x.graph.WellFormed) {recur : Recur}
    (hRecur : x.RecurSettles recur v) {operands : List ValueId} {s : Shape}
    (hGet : x.graph.get? v = some ⟨.op .accumulate operands, s⟩) (scope : IndexScope)
    (axes : Axes) :
    x.Settles operands (x.applyRule recur scope v .accumulate operands s axes) := by
  have hOp := Graph.op?_of_get? hGet
  have hAccumulation : isAccumulation x.graph v = true := by rw [isAccumulation, hOp]
  have hLt := lt_of_mem_accumulationTerms hGraph.ordered x.names hAccumulation
  have hTerms : accumulationTerms x.graph v x.names =
      collectTerms x.graph x.names (v + 1) v := if_pos hAccumulation
  rw [← Graph.operands_of_op? hOp]
  refine Settles.congr (?_ : x.Settles (accumulationTerms x.graph v x.names) _) fun e => ?_
  · refine List.append_nil (accumulationTerms x.graph v x.names) ▸
      (settles_mapM fun w hw => hRecur w (hLt w hw) _ _).bind fun built => ?_
    split <;> exact settles_ok _
  · rw [hTerms, exists_meets_collectTerms hGraph.ordered (Nat.lt_succ_self v)]

/-- The rule of a reshape makes the same check as the obstacle. -/
theorem settles_reshape {recur : Recur} {a : ValueId} (hExpands : x.Expands v)
    (hOp : x.graph.op? v = some (.reshape, [a]))
    (hRecur : ∀ (scope : IndexScope) (axes : Axes), x.Settles [a] (recur scope a axes))
    (scope : IndexScope) (axes : Axes) :
    x.Settles [v] (x.reshape recur scope v a (x.graph.shape v) axes) := by
  have hObstacle : x.graph.obstacle? v =
      if (x.graph.shape a).nonSingleton = (x.graph.shape v).nonSingleton then none
      else some (.reshape v (x.graph.shape a) (x.graph.shape v)) := by
    unfold Graph.obstacle?
    rw [hOp]
  unfold reshape
  by_cases hSame : (x.graph.shape a).nonSingleton = (x.graph.shape v).nonSingleton
  · simp only [hSame, ne_eq, not_true_eq_false, ↓reduceIte]
    refine .of_operands hExpands (by rw [hObstacle, if_pos hSame]) ?_
    rw [Graph.operands_of_op? hOp]
    exact hRecur _ _
  · simp only [hSame, ne_eq, not_false_eq_true, ↓reduceIte]
    exact settles_error hExpands (by rw [hObstacle, if_neg hSame])

/-- Each rule asks for all operands, and for nothing else. -/
theorem settles_applyRule (hGraph : x.graph.WellFormed) {recur : Recur}
    (hRecur : x.RecurSettles recur v) {op : Operation} {operands : List ValueId} {s : Shape}
    (hGet : x.graph.get? v = some ⟨.op op operands, s⟩) (hExpands : x.Expands v) {rule : Rule}
    (hRule : op.rule? = some rule) (scope : IndexScope) (axes : Axes) :
    x.Settles [v] (x.applyRule recur scope v rule operands s axes) := by
  obtain rfl : x.graph.shape v = s := Graph.shape_of_get? hGet
  have hOp := Graph.op?_of_get? hGet
  have hOperands : x.graph.operands v = operands := Graph.operands_of_op? hOp
  have hBefore := hGraph.before hGet
  have hFits := hGraph.fits hGet
  generalize hShapes : operands.map x.graph.shape = shapes at hFits
  generalize hOut : x.graph.shape v = out at hFits
  have hFollows : (∀ name, op ≠ .foreign name) → op ≠ .reshape →
      ∀ {m : Except UnsupportedPrimitive SourcedExpr}, x.Settles operands m →
        x.Settles [v] m :=
    fun hForeign hReshape _ h =>
      .of_operands hExpands (obstacle?_eq_none hOp hForeign hReshape) (hOperands ▸ h)
  cases hFits with
  | arith =>
    obtain ⟨a, b, rfl, -, -⟩ := eq_pair_of_map hShapes
    obtain rfl := Option.some.inj hRule
    exact hFollows (by simp) (by simp) ((hRecur a (hBefore a (by simp)) _ _).bind fun l =>
      (hRecur b (hBefore b (by simp)) _ _).map _)
  | indicator =>
    obtain ⟨a, b, rfl, -, -⟩ := eq_pair_of_map hShapes
    obtain rfl := Option.some.inj hRule
    exact hFollows (by simp) (by simp) ((hRecur a (hBefore a (by simp)) _ _).bind fun l =>
      (hRecur b (hBefore b (by simp)) _ _).map _)
  | contract =>
    obtain ⟨a, b, rfl, -, -⟩ := eq_pair_of_map hShapes
    obtain rfl := Option.some.inj hRule
    exact hFollows (by simp) (by simp) ((hRecur a (hBefore a (by simp)) _ _).bind fun l =>
      (hRecur b (hBefore b (by simp)) _ _).map _)
  | accumulate =>
    obtain rfl := Option.some.inj hRule
    subst hOut
    exact hFollows (by simp) (by simp)
      (settles_accumulationTerms hGraph hRecur hGet scope axes)
  | neg =>
    obtain ⟨a, rfl, -⟩ := eq_singleton_of_map hShapes
    obtain rfl := Option.some.inj hRule
    exact hFollows (by simp) (by simp) ((hRecur a (hBefore a (by simp)) _ _).map _)
  | call =>
    obtain ⟨a, rfl, -⟩ := eq_singleton_of_map hShapes
    obtain rfl := Option.some.inj hRule
    exact hFollows (by simp) (by simp) ((hRecur a (hBefore a (by simp)) _ _).map _)
  | reduceSum =>
    obtain ⟨a, rfl, -⟩ := eq_singleton_of_map hShapes
    obtain rfl := Option.some.inj hRule
    exact hFollows (by simp) (by simp) ((hRecur a (hBefore a (by simp)) _ _).map _)
  | broadcast =>
    obtain ⟨a, rfl, -⟩ := eq_singleton_of_map hShapes
    obtain rfl := Option.some.inj hRule
    exact hFollows (by simp) (by simp) (hRecur a (hBefore a (by simp)) _ _)
  | transpose =>
    obtain ⟨a, rfl, -⟩ := eq_singleton_of_map hShapes
    obtain rfl := Option.some.inj hRule
    exact hFollows (by simp) (by simp) (hRecur a (hBefore a (by simp)) _ _)
  | cast =>
    obtain ⟨a, rfl, -⟩ := eq_singleton_of_map hShapes
    obtain rfl := Option.some.inj hRule
    exact hFollows (by simp) (by simp) (hRecur a (hBefore a (by simp)) _ _)
  | reshape =>
    obtain ⟨a, rfl, -⟩ := eq_singleton_of_map hShapes
    obtain rfl := Option.some.inj hRule
    subst hOut
    exact settles_reshape hExpands hOp (hRecur a (hBefore a (by simp))) scope axes
  | foreign => exact absurd hRule (by simp [Operation.rule?])

/-- **A formula is built exactly if nothing is met that cannot be written**, and otherwise it
fails for something that is met. -/
theorem settles_buildWithin (hGraph : x.graph.WellFormed) {fuel : Nat}
    (hFuel : v < fuel ∨ x.graph.size ≤ v) (scope : IndexScope) (axes : Axes) :
    x.Settles [v] (x.buildWithin fuel scope v axes) := by
  -- The induction is on the fuel, which bounds the value; rules ask for earlier values only.
  induction fuel using Nat.strong_induction_on generalizing v scope axes with
  | _ fuel ih =>
    have hEnds : x.graph.op? v = none → ∀ f : SourcedExpr, x.Settles [v] (.ok f) := by
      intro hOp f w hw e hMeets
      obtain rfl := List.mem_singleton.mp hw
      rcases (meets_iff hMeets.expands).mp hMeets with hObstacle | ⟨u, hu, -⟩
      · exact absurd hObstacle (by simp [Graph.obstacle?, hOp])
      · have hNone : x.graph.operands w = [] := by
          cases hGet : x.graph.get? w with
          | none => rw [Graph.operands, hGet]; rfl
          | some value =>
            obtain ⟨content, s⟩ := value
            cases content with
            | op op operands => exact absurd hOp (by rw [Graph.op?_of_get? hGet]; simp)
            | leaf | literal c => exact Graph.operands_of_get? hGet
        exact absurd (hNone ▸ hu) List.not_mem_nil
    rw [buildWithin.eq_def]
    simp only
    split
    · -- A value that is written as its symbol is not expanded, and meets nothing.
      rename_i symbol hSymbol
      intro w hw e hMeets
      obtain rfl := List.mem_singleton.mp hw
      split at hSymbol
      · exact absurd hSymbol (by simp)
      · rename_i hNotRoot
        rcases hMeets.expands with hRoot | hNone
        · exact hNotRoot hRoot
        · exact absurd (hSymbol.symm.trans hNone) (by simp)
    · rename_i hSymbol
      have hExpands : x.Expands v := by
        split at hSymbol
        · rename_i hRoot
          exact Or.inl hRoot
        · exact Or.inr hSymbol
      split
      · rename_i hNone
        exact hEnds (by rw [Graph.op?, hNone]; rfl) _
      · rename_i value hGet
        obtain ⟨content, s⟩ := value
        have hv := hFuel.resolve_right (Nat.not_le.mpr (Graph.lt_size_of_get? hGet))
        simp only
        split
        · exact hEnds (by rw [Graph.op?, hGet]; rfl) _
        · exact hEnds (by rw [Graph.op?, hGet]; rfl) _
        · exact absurd hv (Nat.not_lt_zero v)
        · rename_i op operands fuel
          split
          · -- An operation without a rule is foreign.
            rename_i hRule
            cases op with
            | foreign name =>
              refine settles_error hExpands ?_
              rw [Graph.obstacle?, Graph.op?_of_get? hGet]
              rfl
            | _ => exact absurd hRule (by simp [Operation.rule?])
          · rename_i rule hRule
            refine settles_applyRule hGraph ?_ hGet hExpands hRule scope axes
            intro w hw scope' axes'
            exact ih fuel (Nat.lt_succ_self fuel)
              (Or.inl (Nat.lt_of_lt_of_le hw (Nat.lt_succ_iff.mp hv))) scope' axes'

end Expansion

/-! ## Equations -/

/-- The right-hand side of the equation meets an operation that cannot be written. -/
def EquationPlan.Meets (p : EquationPlan) (g : Graph) (names : NameTable)
    (e : UnsupportedPrimitive) : Prop :=
  p.Expanded names ∧ Expansion.Meets ⟨g, names, some p.root⟩ p.root e

/-- What is built from plans is there exactly if none of them meets what cannot be written, and
otherwise it fails for something that is met. -/
def SettlesPlans (g : Graph) (names : NameTable) (plans : List EquationPlan) {α : Type} :
    Except UnsupportedPrimitive α → Prop
  | .ok _ => ∀ p ∈ plans, ∀ e, ¬ p.Meets g names e
  | .error e => ∃ p ∈ plans, p.Meets g names e

namespace Builder

variable {b : Builder} {p : EquationPlan}

theorem settles_rightHandSide (hGraph : b.graph.WellFormed) (p : EquationPlan)
    (scope : IndexScope) (axes : Axes) :
    SettlesPlans b.graph b.names [p] (b.rightHandSide p.symbol p.root scope axes) := by
  -- If the root is expanded, what it meets decides.
  have hBuilt : p.Expanded b.names → SettlesPlans b.graph b.names [p]
      (Expansion.build ⟨b.graph, b.names, some p.root⟩ scope p.root axes) := by
    intro hExpanded
    have hSettles : Expansion.Settles ⟨b.graph, b.names, some p.root⟩ [p.root]
        (Expansion.build ⟨b.graph, b.names, some p.root⟩ scope p.root axes) :=
      Expansion.settles_buildWithin hGraph (Nat.lt_or_ge p.root b.graph.size) scope axes
    revert hSettles
    cases Expansion.build ⟨b.graph, b.names, some p.root⟩ scope p.root axes with
    | error e =>
      rintro ⟨w, hw, hMeets⟩
      obtain rfl := List.mem_singleton.mp hw
      exact ⟨p, List.mem_singleton_self p, hExpanded, hMeets⟩
    | ok f =>
      intro hNone q hq e hMeets
      obtain rfl := List.mem_singleton.mp hq
      exact hNone _ (List.mem_singleton_self _) e hMeets.2
  unfold rightHandSide
  simp only
  split
  · rename_i own hOwn
    split
    · rename_i hSame
      exact hBuilt (Or.inr (hSame ▸ hOwn))
    · rename_i hOther
      intro q hq e hMeets
      obtain rfl := List.mem_singleton.mp hq
      rcases hMeets.1 with hNone | hSame
      · exact absurd (hOwn.symm.trans hNone) (by simp)
      · exact hOther (Option.some.inj (hOwn.symm.trans hSame))
  · rename_i hNone
    exact hBuilt (Or.inl hNone)

theorem settles_equation (hGraph : b.graph.WellFormed) (p : EquationPlan) :
    SettlesPlans b.graph b.names [p] (b.equation p.kind p.symbol p.root).1 := by
  have hRhs := settles_rightHandSide hGraph p (freeIndices (b.graph.shape p.root) b.scope).2
    (freeIndices (b.graph.shape p.root) b.scope).1
  unfold equation
  simp only
  split
  · rename_i e hError
    rwa [hError] at hRhs
  · rename_i f hOk
    rwa [hOk] at hRhs

/-- A builder only changes what is in scope. -/
theorem equation_snd (kind : EquationKind) (symbol : Symbol) (root : ValueId) :
    (b.equation kind symbol root).2.graph = b.graph ∧
      (b.equation kind symbol root).2.names = b.names := by
  unfold equation
  simp only
  split <;> exact ⟨rfl, rfl⟩

end Builder

/-- Equations are built one after the other, up to the first that meets what cannot be written. -/
theorem settles_buildPlanned {b : Builder} (hGraph : b.graph.WellFormed)
    (plans : List EquationPlan) :
    SettlesPlans b.graph b.names plans (buildPlanned b plans) := by
  induction plans generalizing b with
  | nil => exact fun p hp => absurd hp List.not_mem_nil
  | cons p plans ih =>
    have hFirst := b.settles_equation hGraph p
    obtain ⟨hSameGraph, hSameNames⟩ := b.equation_snd p.kind p.symbol p.root
    rw [buildPlanned]
    split
    · -- The plans behind a failing equation are not looked at.
      rename_i e b' hEquation
      rw [hEquation] at hFirst
      obtain ⟨q, hq, hMeets⟩ := hFirst
      exact ⟨q, by simp [List.mem_singleton.mp hq], hMeets⟩
    · rename_i equation b' hEquation
      rw [hEquation] at hFirst hSameGraph hSameNames
      have hRest := @ih b' (by rwa [hSameGraph])
      rw [hSameGraph, hSameNames] at hRest
      cases hPlanned : buildPlanned b' plans with
      | error e =>
        rw [hPlanned] at hRest
        obtain ⟨q, hq, hMeets⟩ := hRest
        exact ⟨q, List.mem_cons_of_mem p hq, hMeets⟩
      | ok es =>
        rw [hPlanned] at hRest
        intro q hq
        rcases List.mem_cons.mp hq with rfl | hq
        · exact hFirst q (List.mem_singleton_self q)
        · exact hRest q hq

/-! ## Runs -/

/-- The run has got to its end: there is a text, with an equation for each output of the trace,
and only warnings were reported. -/
structure Run.Completed (r : Run) (t : Trace) (warnings : List Diagnostic) : Prop where
  failure : r.failure = none
  hasError : r.state.hasError = false
  diagnostics : r.state.diagnostics = warnings
  program : ∃ program, r.state.program = some program ∧
    program.outputs.length = t.outputs.length
  text : r.state.text.isSome = true

/-- The report is an error about the operation of a value: it has the code of what cannot be
written, its message begins with the name of the operation, and it is about this value. -/
structure Diagnostic.Names (d : Diagnostic) (g : Graph) (v : ValueId) : Prop where
  code : d.code.map (·.text) = some "E0100"
  severity : d.severity = .error
  message : ∃ op operands rest, g.op? v = some (op, operands) ∧
    d.message = "unsupported primitive `" ++ op.name ++ "`" ++ rest
  values : d.values = [v]

/-- The run has stopped at an operation that cannot be written: there are neither equations nor
text, and behind the warnings stands one error, which names the operation. -/
structure Run.Stopped (r : Run) (g : Graph) (warnings : List Diagnostic)
    (e : UnsupportedPrimitive) : Prop where
  failure : r.failure = some (.build, e)
  hasError : r.state.hasError = true
  report : ∃ d v, r.state.diagnostics = warnings ++ [d] ∧ e.value = some v ∧ d.Names g v
  program : r.state.program = none
  text : r.state.text = none

/-- The report about an operation that cannot be written names it. -/
theorem Graph.names_of_obstacle? {g : Graph} {v : ValueId} {e : UnsupportedPrimitive}
    (h : g.obstacle? v = some e) :
    e.value = some v ∧ (Failure.unsupported e).diagnostic.Names g v := by
  unfold obstacle? at h
  split at h
  · rename_i name operands hOp
    obtain rfl := Option.some.inj h
    exact ⟨rfl, rfl, rfl, ⟨_, _, "", hOp, rfl⟩, rfl⟩
  · rename_i a hOp
    split at h
    · exact absurd h (by simp)
    · obtain rfl := Option.some.inj h
      exact ⟨rfl, rfl, rfl, ⟨_, _, _, hOp, rfl⟩, rfl⟩
  · exact absurd h (by simp)

namespace Trace

variable {t : Trace} {options : Options}

/-- The warnings about the bindings of a trace. -/
def warnings (t : Trace) (options : Options) : List Diagnostic :=
  (resolveNames (options.functionName.getD t.name) t.arguments t.bindings).2

/-- Bindings are only warned about. -/
theorem isError_of_mem_warnings {w : Diagnostic} (h : w ∈ t.warnings options) :
    w.isError = false := by
  obtain ⟨name, -, hWarning⟩ := List.mem_filterMap.mp h
  unfold ambiguityWarning? at hWarning
  simp only at hWarning
  split at hWarning
  · exact absurd hWarning (by simp)
  · obtain rfl := Option.some.inj hWarning
    rfl

/-- One of the equations of the trace meets an operation that cannot be written. -/
def Meets (t : Trace) (options : Options) (e : UnsupportedPrimitive) : Prop :=
  ∃ p ∈ planProgram t (t.threaded options).1 (t.threaded options).2,
    p.Meets t.graph (t.threaded options).1 e

/-- The equations are the only thing that a run may fail to make. -/
theorem run_render (t : Trace) (options : Options) :
    match buildProgram t (t.threaded options).1 (t.threaded options).2 options with
    | .ok _ => (t.run options .render).Completed t (t.warnings options)
    | .error e => ∀ v, e.value = some v → (Failure.unsupported e).diagnostic.Names t.graph v →
      (t.run options .render).Stopped t.graph (t.warnings options) e := by
  have hRun : t.run options .render = ((t.run options .thread).next .build).next .render := rfl
  -- What the passes before leave behind is read off their definitions.
  have hNames : (t.run options .thread).state.names = some (t.threaded options).1 := rfl
  have hThreading : (t.run options .thread).state.threading = some (t.threaded options).2 := rfl
  have hTrace : (t.run options .thread).state.trace = t := rfl
  have hOptions : (t.run options .thread).state.options = options := rfl
  have hProgram : (t.run options .thread).state.program = none := rfl
  have hText : (t.run options .thread).state.text = none := rfl
  have hFailure : (t.run options .thread).failure = none := rfl
  have hDiagnostics : (t.run options .thread).state.diagnostics = t.warnings options := by
    show ([] ++ t.warnings options) ++ [] = _
    rw [List.nil_append, List.append_nil]
  have hHasError : (t.run options .thread).state.hasError = false := by
    show ((false || (t.warnings options).any (·.isError)) || _) = false
    have hNone : (t.warnings options).any (·.isError) = false := by
      rw [List.any_eq_false]
      intro w hw
      simp [isError_of_mem_warnings hw]
    rw [hNone]
    rfl
  rw [hRun, Run.next.eq_def (t.run options .thread), hFailure]
  simp only [Transcription.runPass, hNames, hThreading, hTrace, hOptions]
  cases hBuild : buildProgram t (t.threaded options).1 (t.threaded options).2 options with
  | ok program =>
    have hLength : program.outputs.length = t.outputs.length := by
      simpa using congrArg List.length (outputs_buildProgram hBuild)
    refine ⟨rfl, ?_, ?_, ⟨program, rfl, hLength⟩, rfl⟩
    · show (((t.run options .thread).state.hasError || false) || false) = false
      rw [hHasError]
      rfl
    · show ((t.run options .thread).state.diagnostics ++ []) ++ [] = _
      rw [hDiagnostics, List.append_nil, List.append_nil]
  | error e =>
    intro v hValue hNames
    refine ⟨rfl, ?_, ⟨_, v, ?_, hValue, hNames⟩, hProgram, hText⟩
    · show ((t.run options .thread).state.hasError || true) = true
      rw [Bool.or_true]
    · show (t.run options .thread).state.diagnostics ++ _ = _
      rw [hDiagnostics]

/-- A trace with a well-formed graph is transcribed exactly if its equations meet nothing that
cannot be written. -/
theorem run_settles (hGraph : t.graph.WellFormed) (options : Options) :
    (∀ e, ¬ t.Meets options e) ∧ (t.run options .render).Completed t (t.warnings options) ∨
      ∃ e, t.Meets options e ∧
        (t.run options .render).Stopped t.graph (t.warnings options) e := by
  have hRun := run_render t options
  have hSettles : SettlesPlans t.graph (t.threaded options).1
      (planProgram t (t.threaded options).1 (t.threaded options).2)
      (buildProgram t (t.threaded options).1 (t.threaded options).2 options) :=
    settles_buildPlanned (b := Builder.new t.graph (t.threaded options).1 options.indexAlphabet)
      hGraph _
  revert hRun hSettles
  cases buildProgram t (t.threaded options).1 (t.threaded options).2 options with
  | ok program =>
    intro hCompleted hNone
    refine Or.inl ⟨?_, hCompleted⟩
    rintro e ⟨p, hp, hMeets⟩
    exact hNone p hp e hMeets
  | error e =>
    intro hStopped hMeets
    -- What is reported names the operation that is met.
    obtain ⟨p, hp, hExpanded, u, hReaches, hObstacle⟩ := hMeets
    obtain ⟨hValue, hNames⟩ := Graph.names_of_obstacle? hObstacle
    exact Or.inr ⟨e, ⟨p, hp, hExpanded, u, hReaches, hObstacle⟩, hStopped u hValue hNames⟩

/-! ## Symbols -/

/-- No equation of the trace needs more than 256 symbols for each letter of the alphabet at once. -/
def SymbolsSuffice (t : Trace) (options : Options) : Prop :=
  ∀ p ∈ planProgram t (t.threaded options).1 (t.threaded options).2,
    ∀ n, p.Needs t.graph (t.threaded options).1 n →
      n ≤ 256 * (alphabetLetters options.indexAlphabet).length

/-- The equations of a trace that are built in place, with primes counted in eight bits; none if a
search for a symbol does not end. -/
def builtInPlace (t : Trace) (options : Options) : Option (Except UnsupportedPrimitive Program) :=
  ((Workspace.planned t.graph (t.threaded options).1
      (planProgram t (t.threaded options).1 (t.threaded options).2)).run
    (Workspace.new options.indexAlphabet)).map (·.1)

/-- Every search for a symbol ends, and the equations are those that are built with an unbounded
count of primes. -/
def SearchesEnd (t : Trace) (options : Options) : Prop :=
  t.builtInPlace options =
    some (buildProgram t (t.threaded options).1 (t.threaded options).2 options)

/-- **If the symbols suffice, every search ends.** -/
theorem searchesEnd (hGraph : t.graph.WellFormed) (h : t.SymbolsSuffice options) :
    t.SearchesEnd options := by
  obtain ⟨w, hRun⟩ := Workspace.run_planned
    (b := Builder.new t.graph (t.threaded options).1 options.indexAlphabet) hGraph
    fun p hp n hNeeds => IndexScope.hasRoom_ofAlphabet (h p hp n hNeeds)
  unfold SearchesEnd builtInPlace
  exact congrArg (Option.map (·.1)) hRun

/-- The symbols suffice if they do for all operations of the graph together. -/
theorem symbolsSuffice_of_le (hGraph : t.graph.Ordered)
    (h : ∀ p ∈ planProgram t (t.threaded options).1 (t.threaded options).2,
      (t.graph.shape p.root).nonSingleton.length +
        ((List.range (p.root + 1)).map t.graph.opened).sum ≤
          256 * (alphabetLetters options.indexAlphabet).length) : t.SymbolsSuffice options :=
  fun p hp _ hNeeds => Nat.le_trans (hNeeds.le hGraph) (h p hp)

/-- **A run stops exactly at what cannot be written.** For an imported trace and any options whose
alphabet has the symbols that are needed at once, every search for a symbol ends, and the run to the
text fails if and only if some planned equation whose root is expanded meets, on the way down
through operands without symbols, a foreign operation or a reshape that changes extents other than
one. If it fails, there are neither equations nor text, and one error that names such an operation
is reported behind the warnings about bindings. Otherwise there are a text and an equation for each
output, and nothing but the warnings. -/
theorem run_stops_iff (h : ∃ text, ofText text = .ok t) (options : Options)
    (hSymbols : t.SymbolsSuffice options) :
    t.SearchesEnd options ∧
      ((t.run options .render).failure.isSome = true ↔ ∃ e, t.Meets options e) ∧
      ((t.run options .render).failure.isSome = true →
        ∃ e, t.Meets options e ∧
          (t.run options .render).Stopped t.graph (t.warnings options) e) ∧
      ((t.run options .render).failure = none →
        (t.run options .render).Completed t (t.warnings options)) ∧
      ∀ w ∈ t.warnings options, w.isError = false := by
  obtain ⟨text, hText⟩ := h
  have hGraph := (importable_of_ofText hText).wellFormed.graph
  have hWarnings : ∀ w ∈ t.warnings options, w.isError = false :=
    fun w hw => isError_of_mem_warnings hw
  refine ⟨searchesEnd hGraph hSymbols, ?_⟩
  -- The two outcomes exclude each other, which gives both directions at once.
  rcases run_settles hGraph options with ⟨hNone, hCompleted⟩ | ⟨e, hMeets, hStopped⟩
  · have hOk : ¬ (t.run options .render).failure.isSome = true := by simp [hCompleted.failure]
    refine ⟨⟨fun hSome => absurd hSome hOk, ?_⟩, fun hSome => absurd hSome hOk,
      fun _ => hCompleted, hWarnings⟩
    rintro ⟨e, hMeets⟩
    exact absurd hMeets (hNone e)
  · refine ⟨⟨fun _ => ⟨e, hMeets⟩, fun _ => ?_⟩, fun _ => ⟨e, hMeets, hStopped⟩, ?_, hWarnings⟩
    · rw [hStopped.failure]
      rfl
    · intro hOk
      exact absurd (hStopped.failure.symm.trans hOk) (by simp)

/-- A matrix whose entries are put in one row. -/
def flattened : Trace where
  name := "f"
  graph := ⟨#[⟨.leaf, [2, 3]⟩, ⟨.op .reshape [0], [6]⟩]⟩
  arguments := [⟨0, some "x", false⟩]
  bindings := []
  tags := []
  outputs := [1]

theorem flattened_imported : ∃ text, ofText text = .ok flattened :=
  exists_text_of_ofDraft (by decide) (by decide) (by decide) (by decide)

/-- The transcription of the row stops at the reshape, for the output is expanded. -/
theorem run_stops_iff_flattened :
    flattened.SymbolsSuffice {} ∧ flattened.SearchesEnd {} ∧
      (flattened.run {} .render).Stopped flattened.graph [] (.reshape 1 [2, 3] [6]) := by
  have hSymbols : flattened.SymbolsSuffice {} := by
    obtain ⟨text, hText⟩ := flattened_imported
    exact symbolsSuffice_of_le (importable_of_ofText hText).wellFormed.graph.ordered
      (by decide +kernel)
  obtain ⟨hEnd, hIff, hStopped, -⟩ := run_stops_iff flattened_imported {} hSymbols
  have hMeets : flattened.Meets {} (.reshape 1 [2, 3] [6]) :=
    ⟨⟨.output, .plain "f", 1⟩, by decide, Or.inl (by decide), 1, .self (Or.inl rfl),
      by decide⟩
  obtain ⟨e, -, hRun⟩ := hStopped (hIff.mpr ⟨_, hMeets⟩)
  have hFailure : (flattened.run {} .render).failure =
      some (.build, .reshape 1 [2, 3] [6]) := by decide
  obtain rfl : e = .reshape 1 [2, 3] [6] :=
    (Prod.mk.inj (Option.some.inj (hRun.failure.symm.trans hFailure))).2
  exact ⟨hSymbols, hEnd, hRun⟩

end Trace

end ArrayEquations
