import ArrayEquations.Proofs.EquationSoundness
import ArrayEquations.Proofs.NestedSymbols

/-!
# ArrayEquations — one stack of indices

While formulas are built one after the other, the indices in scope are a single stack. Whatever
opens indices remembers how high the stack was, and cuts it back to that height in the end. So a
formula that is built leaves the stack as it was, and so does one that cannot be built, at
whatever depth it fails. Formulas that are built in place are then those that are built with the
scope as an argument.

In place the primes of an index are counted in eight bits, and a search for an index may go on
without end. It ends as long as the alphabet has enough indices for what is open at once.

## Main definitions

* `Workspace` — what changes while formulas are built, and `Building`, an action on it, which may
  not end.
* `Workspace.within` — indices that are open during an action only.
* `Workspace.buildWithin`, `Workspace.equation`, `Workspace.planned` — formulas, equations and
  programs built in place.

## Main results

* `Workspace.leaves_buildWithin` — with room for its indices, building a formula in place ends and
  leaves the workspace as it was.
* `Workspace.run_equation`, `Workspace.run_planned` — equations and programs in place are those of a
  builder.
-/

namespace ArrayEquations

/-- What changes while formulas are built. -/
structure Workspace where
  scope : IndexScope
  /-- The value that is expanded although it has a symbol. -/
  root : Option ValueId

/-- An action on a workspace. It may fail, and what it did to the workspace stays. An action without
a result does not end. -/
abbrev Building := ExceptT UnsupportedPrimitive (StateT Workspace Option)

namespace Workspace

/-- A workspace with no index in scope. -/
def new (alphabet : String) : Workspace := ⟨IndexScope.ofAlphabet alphabet, none⟩

/-! ## Building in place -/

/-- Opens indices, runs an action, and closes what was opened since, however the action ends. -/
def within {α β : Type} (opened : IndexScope → Option (α × IndexScope))
    (action : α → StateT Workspace Option β) : StateT Workspace Option β := fun w => do
  let (a, inner) ← opened w.scope
  let (b, w') ← action a { w with scope := inner }
  return (b, { w' with scope := w'.scope.release w.scope.mark })

/-- A way to build in place the formula of a value whose axes carry the indices given. -/
abbrev Recur := ValueId → Axes → Building SourcedExpr

variable (g : Graph) (names : NameTable)

/-- The formula of an elementwise operand. -/
def elementwise (recur : Recur) (out : Shape) (axes : Axes) (operand : ValueId) :
    Building SourcedExpr :=
  recur operand (elementwiseAxes (g.shape operand) out axes)

/-- How an action ended. -/
abbrev Outcome := Except UnsupportedPrimitive SourcedExpr

/-- The formula of a contraction. Both operands are built before a failure of the first one
counts. -/
def contract (recur : Recur) (id : ValueId) (axes : ContractionAxes) (lhs rhs : ValueId)
    (out : Axes) : Building SourcedExpr := do
  let ls := g.shape lhs
  let rs := g.shape rhs
  let lhsFree := axes.lhsFree ls.rank
  let rhsFree := axes.rhsFree rs.rank
  let batch := axes.lhsBatch.length
  let paired := axes.lhsBatch.zip axes.rhsBatch
  let both : StateT Workspace Option (List Index × Outcome × Outcome) :=
    within (contractedIndices? ls rs (axes.lhsContract.zip axes.rhsContract)) fun pairs => do
      let l ← (recur lhs (contractedAxes ls (paired.map (·.1)) lhsFree batch
        (pairs.map fun (l, _, i) => (l, i)) out)).run
      let r ← (recur rhs (contractedAxes rs (paired.map (·.2)) rhsFree (batch + lhsFree.length)
        (pairs.map fun (_, r, i) => (r, i)) out)).run
      return (pairs.map fun (_, _, i) => i, l, r)
  let (bound, l, r) ← both
  let l ← l
  let r ← r
  return summation id bound (.binary .mul l r)

/-- The formula of a sum over axes. -/
def reduce (recur : Recur) (id : ValueId) (axes : List Nat) (operand : ValueId) (out : Axes) :
    Building SourcedExpr := do
  let opened (scope : IndexScope) : Option ((Axes × List Index) × IndexScope) := do
    let (operandAxes, bound, inner) ← reduceAxes? axes (g.shape operand).zipIdx out scope
    return ((operandAxes, bound), inner)
  let body : StateT Workspace Option (List Index × Outcome) :=
    within opened fun (operandAxes, bound) => do
      let body ← (recur operand operandAxes).run
      return (bound, body)
  let (bound, body) ← body
  return summation id bound (← body)

/-- The formula of a reshape, which may only insert or drop axes of extent one. -/
def reshape (recur : Recur) (id operand : ValueId) (shape : Shape) (axes : Axes) :
    Building SourcedExpr :=
  let own := g.shape operand
  if own.nonSingleton ≠ shape.nonSingleton then throw (.reshape id own shape)
  else recur operand (reshapeAxes own shape axes)

/-- The formula of an operation by its rule. -/
def applyRule (recur : Recur) (id : ValueId) (rule : Rule) (operands : List ValueId)
    (shape : Shape) (axes : Axes) : Building SourcedExpr :=
  let first := operands.getD 0 0
  let second := operands.getD 1 0
  match rule with
  | .elide => recur first axes
  | .reshape => reshape g recur id first shape axes
  | .operator op => do
    let l ← elementwise g recur shape axes first
    let r ← elementwise g recur shape axes second
    return .binary op l r
  | .negate => do return .neg (← elementwise g recur shape axes first)
  | .call f => do return .call f (← elementwise g recur shape axes first)
  | .indicator c => do
    let l ← elementwise g recur shape axes first
    let r ← elementwise g recur shape axes second
    return .indicator c l r
  | .contract paired => contract g recur id paired first second axes
  | .reduce summed => reduce g recur id summed first axes
  | .broadcast dims => recur first (broadcastAxes (g.shape first) dims axes)
  | .transpose permutation => recur first (transposeAxes (g.shape first) permutation axes)
  | .accumulate => do
    let terms := accumulationTerms g id names
    let built ← terms.mapM (elementwise g recur shape axes)
    match built with
    | [single] => return single
    | built => return .terms built

/-- The formula of a value whose axes carry the indices given. -/
def buildWithin : Nat → Recur
  | fuel, id, axes => do
    match (if (← get).root = some id then none else names.symbol? id) with
    | some symbol => return reference id symbol axes
    | none =>
      match g.get? id with
      | none => return reference id (.plain (valueText id)) axes
      | some value =>
        match value.content, fuel with
        | .leaf, _ =>
          return reference id ((names.symbol? id).getD (.plain (valueText id))) axes
        | .literal c, _ => return .literal c
        | .op _ _, 0 => return reference id (.plain (valueText id)) axes
        | .op op operands, fuel + 1 =>
          match op.rule? with
          | none => throw (.foreign op.name id)
          | some rule => applyRule g names (buildWithin fuel) id rule operands value.shape axes

/-- The formula of a value whose axes carry the indices given. -/
def build : Recur := buildWithin g names g.size

/-- The formula of a value that counts as expanded while it is built, also if that fails. -/
def expand (root : ValueId) (axes : Axes) : Building SourcedExpr := ExceptT.mk do
  modify fun w => { w with root := some root }
  let built ← (build g names root axes).run
  modify fun w => { w with root := none }
  return built

/-- The right-hand side of the equation of a symbol with a value: the symbol of the value if that
is another one, and the expanded value otherwise. -/
def rightHandSide (symbol : Symbol) (root : ValueId) (axes : Axes) : Building SourcedExpr :=
  match names.symbol? root with
  | some own =>
    if own = symbol then expand g names root axes else return reference root own axes
  | none => expand g names root axes

/-- The equation of a symbol with a value. The indices of the left-hand side are closed if the
right-hand side could be built, and stay open if not. -/
def equation (kind : EquationKind) (symbol : Symbol) (root : ValueId) : Building Equation := do
  let mark := (← get).scope.mark
  let opened : StateT Workspace Option Axes := fun w => do
    let (axes, scope) ← Builder.freeIndices? (g.shape root) w.scope
    return (axes, { w with scope := scope })
  let axes ← opened
  let rhs ← rightHandSide g names symbol root axes
  modify fun w => { w with scope := w.scope.release mark }
  return ⟨kind, ⟨symbol, axes.indices⟩, rhs.expr⟩

/-- The equations of plans, one after the other, up to the first that cannot be built. -/
def planned (plans : List EquationPlan) : Building Program :=
  plans.mapM fun p => equation g names p.kind p.symbol p.root

/-! ## What building leaves behind -/

variable {g : Graph} {names : NameTable} {α β : Type} {w w' : Workspace}

/-- The action ends as given, and the workspace is as before. -/
def Leaves (m : Building α) (w : Workspace) (outcome : Except UnsupportedPrimitive α) : Prop :=
  m.run w = some (outcome, w)

theorem leaves_pure (a : α) : Leaves (pure a) w (.ok a) := rfl

theorem run_get_bind {f : Workspace → Building α} : (get >>= f).run w = (f w).run w := rfl

theorem leaves_throw (e : UnsupportedPrimitive) : Leaves (throw e : Building α) w (.error e) := rfl

/-- What comes after an action runs in the workspace that the action ends in. -/
theorem run_bind_ok {m : Building α} {f : α → Building β} {a : α}
    (h : m.run w = some (.ok a, w')) : (m >>= f).run w = (f a).run w' := by
  rw [ExceptT.run_bind]
  show (StateT.bind _ _ : StateT Workspace Option _) w = _
  unfold StateT.bind
  rw [h]
  rfl

/-- Nothing comes after an action that fails. -/
theorem run_bind_error {m : Building α} {f : α → Building β} {e : UnsupportedPrimitive}
    (h : m.run w = some (.error e, w')) : (m >>= f).run w = some (.error e, w') := by
  rw [ExceptT.run_bind]
  show (StateT.bind _ _ : StateT Workspace Option _) w = _
  unfold StateT.bind
  rw [h]
  rfl

theorem Leaves.bind {m : Building α} {f : α → Building β} {r : Except UnsupportedPrimitive α}
    {k : α → Except UnsupportedPrimitive β} (h : Leaves m w r) (hNext : ∀ a, Leaves (f a) w (k a)) :
    Leaves (m >>= f) w (r >>= k) := by
  cases r with
  | ok a => exact (run_bind_ok h).trans (hNext a)
  | error e => exact run_bind_error h

theorem Leaves.map {m : Building α} {r : Except UnsupportedPrimitive α} (h : Leaves m w r)
    (f : α → β) : Leaves (m >>= fun a => pure (f a)) w (r >>= fun a => .ok (f a)) :=
  h.bind fun a => leaves_pure (f a)

theorem leaves_mapM {f : ValueId → Building α} {k : ValueId → Except UnsupportedPrimitive α}
    {vs : List ValueId} (h : ∀ v ∈ vs, Leaves (f v) w (k v)) :
    Leaves (vs.mapM f) w (vs.mapM k) := by
  induction vs with
  | nil => exact leaves_pure []
  | cons v vs ih =>
    rw [List.mapM_cons, List.mapM_cons]
    refine (h v List.mem_cons_self).bind fun a => ?_
    exact (ih fun u hu => h u (List.mem_cons_of_mem v hu)).map (a :: ·)

/-- An outcome that was put aside counts now. -/
theorem leaves_lift (r : Except UnsupportedPrimitive α) :
    Leaves (liftM r : Building α) w r := by
  cases r <;> rfl

/-- Indices that an action leaves open are closed again. -/
theorem within_eq {opened : IndexScope → Option (α × IndexScope)}
    {action : α → StateT Workspace Option β} {a : α} {inner : IndexScope} {b : β}
    (hOpened : opened w.scope = some (a, inner))
    (hRestore : inner.release w.scope.mark = w.scope)
    (hAction : action a { w with scope := inner } = some (b, { w with scope := inner })) :
    within opened action w = some (b, w) := by
  unfold within
  rw [hOpened]
  show (do
    let (b, w') ← action a { w with scope := inner }
    return (b, { w' with scope := w'.scope.release w.scope.mark })) = _
  rw [hAction]
  show some (b, { w with scope := inner.release w.scope.mark }) = _
  rw [hRestore]

/-- What an action on the workspace alone finds out is used next. -/
theorem run_after {m : StateT Workspace Option β} {b : β} (h : m w = some (b, w'))
    {f : β → Building α} : (liftM m >>= f).run w = (f b).run w' := by
  have hLift : (liftM m : Building β).run w = some (.ok b, w') := by
    show ((m w).bind fun y => some (Except.ok y.1, y.2)) = _
    rw [h]
    rfl
  exact run_bind_ok hLift

private theorem run_one {m : Building α} {c : β} {r : Except UnsupportedPrimitive α}
    (h : Leaves m w r) :
    (do let a ← m.run; return (c, a) :
      StateT Workspace Option (β × Except UnsupportedPrimitive α)) w = some ((c, r), w) := by
  show (StateT.bind _ _ : StateT Workspace Option _) w = _
  unfold StateT.bind
  rw [show m.run w = some (r, w) from h]
  rfl

private theorem run_both {m m' : Building α} {c : β} {r r' : Except UnsupportedPrimitive α}
    (h : Leaves m w r) (h' : Leaves m' w r') :
    (do let a ← m.run; let b ← m'.run; return (c, a, b) :
      StateT Workspace Option
        (β × Except UnsupportedPrimitive α × Except UnsupportedPrimitive α)) w =
      some ((c, r, r'), w) := by
  show (StateT.bind _ _ : StateT Workspace Option _) w = _
  unfold StateT.bind
  rw [show m.run w = some (r, w) from h]
  show (m'.run w).bind (fun y => some ((c, r, y.1), y.2)) = _
  rw [show m'.run w = some (r', w) from h']
  rfl

/-! ## Formulas -/

variable {x : Expansion} {recur : Recur} {recur' : Expansion.Recur} {v a b : ValueId}

/-- With room for the indices of a formula, building in place does what building with the scope as
an argument does, and leaves the workspace as it was. -/
def Agrees (x : Expansion) (recur : Recur) (recur' : Expansion.Recur) : Prop :=
  ∀ (w : Workspace) (id : ValueId) (axes : Axes), w.root = x.root → x.HasRoom w.scope id →
    Leaves (recur id axes) w (recur' w.scope id axes)

/-- Operands that are built under the indices that their operation opens have room for their own. -/
private theorem Agrees.under (h : Agrees x recur recur') (hRoot : w.root = x.root)
    (hRoom : x.HasRoom w.scope v) (hExpands : x.Expands v) {bound : List Index}
    {inner : IndexScope} (hOpened : bound.length = x.graph.opened v)
    (hOpens : w.scope.Opens bound inner) (ha : a ∈ x.graph.operands v) (axes : Axes) :
    Leaves (recur a axes) { w with scope := inner } (recur' inner a axes) :=
  h { w with scope := inner } a axes hRoot (hRoom.under hExpands ha hOpened hOpens)

theorem leaves_contract (h : Agrees x recur recur') (hRoot : w.root = x.root)
    (hRoom : x.HasRoom w.scope v) (hExpands : x.Expands v) {axes : ContractionAxes}
    (hOp : x.graph.op? v = some (.contract axes, [a, b])) (out : Axes) :
    Leaves (contract x.graph recur v axes a b out) w
      (x.contract recur' w.scope v axes a b out) := by
  have hOperands : x.graph.operands v = [a, b] := Graph.operands_of_op? hOp
  have ha : a ∈ x.graph.operands v := by simp [hOperands]
  have hb : b ∈ x.graph.operands v := by simp [hOperands]
  have hScope := hRoom.opened hExpands ha
  have hOpened := Graph.opened_contract hOp w.scope
  have hFound : contractedIndices? (x.graph.shape a) (x.graph.shape b)
      (axes.lhsContract.zip axes.rhsContract) w.scope = some _ :=
    contractedIndices?_eq (by rwa [← hOpened, List.length_map] at hScope)
  have hOpens := contractedIndices_opens (x.graph.shape a) (x.graph.shape b)
    (axes.lhsContract.zip axes.rhsContract) w.scope hScope.letters_ne_nil
  have hUnder := fun {u} => @Agrees.under _ _ _ _ _ u h hRoot hRoom hExpands _ _ hOpened hOpens
  -- Both outcomes are put aside until the indices are closed, and count only then.
  unfold contract Expansion.contract Leaves
  simp only
  rw [run_after (within_eq hFound hOpens.release (run_both (hUnder ha _) (hUnder hb _)))]
  exact (leaves_lift _).bind fun l => (leaves_lift _).map _

theorem leaves_reduce (h : Agrees x recur recur') (hRoot : w.root = x.root)
    (hRoom : x.HasRoom w.scope v) (hExpands : x.Expands v) {axes : List Nat}
    (hOp : x.graph.op? v = some (.reduceSum axes, [a])) (out : Axes) :
    Leaves (reduce x.graph recur v axes a out) w (x.reduce recur' w.scope v axes a out) := by
  have ha : a ∈ x.graph.operands v := by simp [Graph.operands_of_op? hOp]
  have hScope := hRoom.opened hExpands ha
  have hFound : reduceAxes? axes (x.graph.shape a).zipIdx out w.scope = some _ :=
    reduceAxes?_eq (by rwa [Graph.opened_reduceSum hOp] at hScope)
  have hOpens := reduceAxes_opens axes (x.graph.shape a).zipIdx out w.scope hScope.letters_ne_nil
  have hOpened : (reduceAxes axes (x.graph.shape a).zipIdx out w.scope).2.1.length =
      x.graph.opened v := by
    rw [length_reduceAxes, Graph.opened_reduceSum hOp]
  unfold reduce Expansion.reduce Leaves
  simp only
  generalize reduceAxes axes (x.graph.shape a).zipIdx out w.scope = opened
    at hFound hOpens hOpened ⊢
  obtain ⟨operandAxes, bound, inner⟩ := opened
  have hUnder := h.under hRoot hRoom hExpands hOpened hOpens ha operandAxes
  refine (run_after (?_ : _ = some ((bound, recur' inner a operandAxes), w))).trans ?_
  · refine within_eq (a := (operandAxes, bound)) ?_ hOpens.release (run_one hUnder)
    rw [hFound]
    rfl
  · exact (leaves_lift _).map _

/-- A rule does in place what it does with the scope as an argument. -/
theorem leaves_applyRule (hGraph : x.graph.WellFormed) (h : Agrees x recur recur')
    (hRoot : w.root = x.root) {op : Operation} {operands : List ValueId} {s : Shape}
    (hGet : x.graph.get? v = some ⟨.op op operands, s⟩) (hExpands : x.Expands v)
    (hRoom : x.HasRoom w.scope v) {rule : Rule} (hRule : op.rule? = some rule) (axes : Axes) :
    Leaves (applyRule x.graph x.names recur v rule operands s axes) w
      (x.applyRule recur' w.scope v rule operands s axes) := by
  have hOp := Graph.op?_of_get? hGet
  have hOperands : x.graph.operands v = operands := Graph.operands_of_op? hOp
  have hFits := hGraph.fits hGet
  generalize hShapes : operands.map x.graph.shape = shapes at hFits
  -- An operand of an operation that opens no indices is built in the same scope.
  have hRecur : (∀ axes, op ≠ .contract axes) → (∀ axes, op ≠ .reduceSum axes) →
      ∀ u ∈ operands, ∀ axes, Leaves (recur u axes) w (recur' w.scope u axes) := by
    intro hContract hReduce u hu axes
    have hNone := Graph.opened_eq_zero hOp hContract hReduce
    exact h w u axes hRoot (hRoom.operand hExpands hNone (hOperands ▸ hu))
  cases hFits with
  | arith =>
    obtain ⟨a, b, rfl, -, -⟩ := eq_pair_of_map hShapes
    obtain rfl := Option.some.inj hRule
    have hSame := hRecur (by simp) (by simp)
    exact (hSame a (by simp) _).bind fun l => (hSame b (by simp) _).map _
  | indicator =>
    obtain ⟨a, b, rfl, -, -⟩ := eq_pair_of_map hShapes
    obtain rfl := Option.some.inj hRule
    have hSame := hRecur (by simp) (by simp)
    exact (hSame a (by simp) _).bind fun l => (hSame b (by simp) _).map _
  | contract =>
    obtain ⟨a, b, rfl, -, -⟩ := eq_pair_of_map hShapes
    obtain rfl := Option.some.inj hRule
    exact leaves_contract h hRoot hRoom hExpands hOp axes
  | accumulate =>
    obtain rfl := Option.some.inj hRule
    have hAccumulation : isAccumulation x.graph v = true := by rw [isAccumulation, hOp]
    have hTerms : accumulationTerms x.graph v x.names =
        collectTerms x.graph x.names (v + 1) v := if_pos hAccumulation
    -- The contributions need no more indices than the accumulation itself.
    have hEach : ∀ u ∈ accumulationTerms x.graph v x.names,
        Leaves (elementwise x.graph recur s axes u) w
          (x.elementwise recur' w.scope s axes u) := by
      intro u hu
      refine h w u _ hRoot fun n hNests => ?_
      exact hRoom n (Expansion.nests_of_mem_collectTerms hExpands hAccumulation (hTerms ▸ hu)
        hNests)
    refine (leaves_mapM hEach).bind fun built => ?_
    rcases built with _ | ⟨_, _ | ⟨_, _⟩⟩ <;> exact leaves_pure _
  | neg =>
    obtain ⟨a, rfl, -⟩ := eq_singleton_of_map hShapes
    obtain rfl := Option.some.inj hRule
    exact (hRecur (by simp) (by simp) a (by simp) _).map _
  | call =>
    obtain ⟨a, rfl, -⟩ := eq_singleton_of_map hShapes
    obtain rfl := Option.some.inj hRule
    exact (hRecur (by simp) (by simp) a (by simp) _).map _
  | reduceSum =>
    obtain ⟨a, rfl, -⟩ := eq_singleton_of_map hShapes
    obtain rfl := Option.some.inj hRule
    exact leaves_reduce h hRoot hRoom hExpands hOp axes
  | broadcast =>
    obtain ⟨a, rfl, -⟩ := eq_singleton_of_map hShapes
    obtain rfl := Option.some.inj hRule
    exact hRecur (by simp) (by simp) a (by simp) _
  | transpose =>
    obtain ⟨a, rfl, -⟩ := eq_singleton_of_map hShapes
    obtain rfl := Option.some.inj hRule
    exact hRecur (by simp) (by simp) a (by simp) _
  | cast =>
    obtain ⟨a, rfl, -⟩ := eq_singleton_of_map hShapes
    obtain rfl := Option.some.inj hRule
    exact hRecur (by simp) (by simp) a (by simp) _
  | reshape =>
    obtain ⟨a, rfl, -⟩ := eq_singleton_of_map hShapes
    obtain rfl := Option.some.inj hRule
    show Leaves (reshape x.graph recur v a s axes) w (x.reshape recur' w.scope v a s axes)
    unfold reshape Expansion.reshape
    simp only
    split
    · exact leaves_throw _
    · exact hRecur (by simp) (by simp) a (by simp) _
  | foreign => exact absurd hRule (by simp [Operation.rule?])

/-- **With room for its indices, building a formula in place ends and leaves the workspace as it
was**, whether the formula can be built or not, and it builds what is built with the scope as an
argument. -/
theorem leaves_buildWithin (hGraph : x.graph.WellFormed) (fuel : Nat) :
    Agrees x (buildWithin x.graph x.names fuel) (x.buildWithin fuel) := by
  -- Both functions recurse with less fuel, and both split first on whether the value has a symbol.
  induction fuel using Nat.strong_induction_on with
  | _ fuel ih =>
    intro w v axes hRoot hRoom
    rw [buildWithin.eq_def, Expansion.buildWithin.eq_def]
    unfold Leaves
    rw [run_get_bind, hRoot]
    simp only
    cases hOwn : (if x.root = some v then none else x.names.symbol? v) with
    | some symbol => exact leaves_pure _
    | none =>
      have hExpands : x.Expands v := by
        split at hOwn
        · rename_i hSame
          exact Or.inl hSame
        · exact Or.inr hOwn
      cases hGet : x.graph.get? v with
      | none => exact leaves_pure _
      | some value =>
        obtain ⟨content, s⟩ := value
        cases content with
        | leaf => exact leaves_pure _
        | literal c => exact leaves_pure _
        | op op operands =>
          cases fuel with
          | zero => exact leaves_pure _
          | succ fuel =>
            simp only
            cases hRule : op.rule? with
            | none => exact leaves_throw _
            | some rule =>
              exact leaves_applyRule hGraph (ih fuel (Nat.lt_succ_self fuel)) hRoot hGet hExpands
                hRoom hRule axes

/-! ## Equations -/

/-- A value counts as expanded only while its formula is built. -/
theorem leaves_expand (hGraph : g.WellFormed) {scope : IndexScope} {root : ValueId}
    (hRoom : Expansion.HasRoom ⟨g, names, some root⟩ scope root) (axes : Axes) :
    Leaves (expand g names root axes) ⟨scope, none⟩
      (Expansion.build ⟨g, names, some root⟩ scope root axes) := by
  have hBuild := leaves_buildWithin (x := ⟨g, names, some root⟩) hGraph g.size
    ⟨scope, some root⟩ root axes rfl hRoom
  -- The value is marked, its formula is built, and the mark is taken off whatever came of it.
  show ((buildWithin g names g.size root axes).run ⟨scope, some root⟩).bind
    (fun built => some (built.1, { built.2 with root := none })) = _
  rw [show (buildWithin g names g.size root axes).run ⟨scope, some root⟩ = _ from hBuild]
  rfl

end Workspace

/-- The scope has room for the symbols that the equation needs at once. -/
def EquationPlan.HasRoom (p : EquationPlan) (g : Graph) (names : NameTable) (scope : IndexScope) :
    Prop :=
  ∀ n, p.Needs g names n → scope.HasRoom n

namespace Workspace

variable {b : Builder} {p : EquationPlan} {scope : IndexScope}

/-- The right-hand side of an equation, once the indices of the left-hand side are open. -/
theorem leaves_rightHandSide (hGraph : b.graph.WellFormed) {bound : List Index}
    (hRoom : p.HasRoom b.graph b.names b.scope) (hOpens : b.scope.Opens bound scope)
    (hBound : bound.length = (b.graph.shape p.root).nonSingleton.length) (axes : Axes) :
    Leaves (rightHandSide b.graph b.names p.symbol p.root axes) ⟨scope, none⟩
      (b.rightHandSide p.symbol p.root scope axes) := by
  have hExpand : p.Expanded b.names → Leaves (expand b.graph b.names p.root axes) ⟨scope, none⟩
      (Expansion.build ⟨b.graph, b.names, some p.root⟩ scope p.root axes) := by
    intro hExpanded
    refine leaves_expand hGraph (fun n hNests => ?_) axes
    exact IndexScope.HasRoom.under (hBound ▸ hRoom _ (.right hExpanded hNests)) hOpens
  unfold rightHandSide Builder.rightHandSide
  simp only
  cases hOwn : b.names.symbol? p.root with
  | none => exact hExpand (Or.inl hOwn)
  | some own =>
    simp only
    split
    · rename_i hSame
      exact hExpand (Or.inr (hSame ▸ hOwn))
    · exact leaves_pure _

/-- **An equation in place is an equation of a builder** with the same indices in scope, if there is
room for the indices that it needs. -/
theorem run_equation (hGraph : b.graph.WellFormed)
    (hRoom : p.HasRoom b.graph b.names b.scope) :
    (equation b.graph b.names p.kind p.symbol p.root).run ⟨b.scope, none⟩ =
      some ((b.equation p.kind p.symbol p.root).1,
        ⟨(b.equation p.kind p.symbol p.root).2.scope, none⟩) := by
  have hLeft := hRoom _ .left
  have hFound := Builder.freeIndices?_eq hLeft
  have hOpens := Builder.freeIndices_opens (b.graph.shape p.root) b.scope hLeft.letters_ne_nil
  have hFits := Builder.freeIndices_fits (b.graph.shape p.root) b.scope hLeft.letters_ne_nil
  have hRhs := leaves_rightHandSide hGraph hRoom hOpens hFits.length_indices
    (Builder.freeIndices (b.graph.shape p.root) b.scope).1
  unfold equation Builder.equation
  generalize Builder.freeIndices (b.graph.shape p.root) b.scope = opened at hFound hRhs ⊢
  obtain ⟨axes, inner⟩ := opened
  have hAfter : (fun w : Workspace => do
      let (axes, scope) ← Builder.freeIndices? (b.graph.shape p.root) w.scope
      return (axes, { w with scope := scope }) : StateT Workspace Option Axes) ⟨b.scope, none⟩ =
        some (axes, ⟨inner, none⟩) := by
    show (Builder.freeIndices? (b.graph.shape p.root) b.scope).bind _ = _
    rw [hFound]
    rfl
  refine run_get_bind.trans ((run_after hAfter).trans ?_)
  simp only
  cases hOutcome : b.rightHandSide p.symbol p.root inner axes with
  | ok rhs =>
    rw [hOutcome] at hRhs
    exact run_bind_ok hRhs
  | error e =>
    rw [hOutcome] at hRhs
    exact run_bind_error hRhs

/-- **A program in place is the program of a builder**, if there is room for the indices of each of
its equations. -/
theorem run_planned (hGraph : b.graph.WellFormed) {plans : List EquationPlan}
    (hRoom : ∀ p ∈ plans, p.HasRoom b.graph b.names b.scope) :
    ∃ w, (planned b.graph b.names plans).run ⟨b.scope, none⟩ = some (buildPlanned b plans, w) := by
  unfold planned
  induction plans with
  | nil => exact ⟨_, rfl⟩
  | cons p plans ih =>
    have hFirst := hRoom p List.mem_cons_self
    have hRun := run_equation hGraph hFirst
    rw [List.mapM_cons, buildPlanned]
    cases hEquation : b.equation p.kind p.symbol p.root with
    | mk outcome b' =>
      rw [hEquation] at hRun
      cases outcome with
      | error e => exact ⟨_, run_bind_error hRun⟩
      | ok e =>
        -- An equation that is built closes its indices, and the next one starts like it.
        obtain rfl : b' = b := by
          rw [← Builder.equation_closes (hFirst _ .left).letters_ne_nil
            (congrArg Prod.fst hEquation), hEquation]
        obtain ⟨w, hRest⟩ := ih fun q hq => hRoom q (List.mem_cons_of_mem p hq)
        rw [run_bind_ok hRun]
        simp only
        cases hPlanned : buildPlanned b' plans with
        | error e' =>
          rw [hPlanned] at hRest
          exact ⟨w, run_bind_error hRest⟩
        | ok es =>
          rw [hPlanned] at hRest
          exact ⟨w, run_bind_ok hRest⟩

end Workspace

end ArrayEquations
