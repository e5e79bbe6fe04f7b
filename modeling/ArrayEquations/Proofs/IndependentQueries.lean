import ArrayEquations.Proofs.ImportedTrace
import ArrayEquations.Proofs.IndexStack

/-!
# ArrayEquations — queries that do not affect each other

A builder may be asked for formulas and equations one after the other. As long as no equation fails,
each query finds the workspace as it was at the start, and is answered as if it were the first. An
equation whose right-hand side cannot be written is the exception: it ends before the indices of its
left-hand side are closed, and later equations get other indices.

## Main definitions

* `EndAlike` — both succeed, or both fail with one error.
* `Query` — what a builder may be asked for.
* `Query.FindRoom` — each of several queries finds room for the indices that it needs.

## Main results

* `Expansion.endAlike_buildWithin` — whether a formula can be built does not depend on indices.
* `Query.ask_eq` — a query in place is a query of a builder.
* `Query.answers_independent` — with room for their indices all queries end, and as long as no
  equation fails, each query is answered as if it were the first.
* `Query.equation_stays_open` — a failed equation changes the next one.
-/

namespace ArrayEquations

/-! ## Failures -/

/-- Both succeed, or both fail with one error. -/
def EndAlike {α β : Type} (m : Except UnsupportedPrimitive α) (m' : Except UnsupportedPrimitive β) :
    Prop :=
  ∀ e, m = .error e ↔ m' = .error e

namespace EndAlike

variable {α β γ δ : Type} {m : Except UnsupportedPrimitive α} {m' : Except UnsupportedPrimitive β}

theorem ok (a : α) (b : β) : EndAlike (.ok a) (.ok b) := fun e => by simp

theorem error (e : UnsupportedPrimitive) :
    @EndAlike α β (.error e) (.error e) :=
  fun e' => by simp

theorem bind (h : EndAlike m m') {f : α → Except UnsupportedPrimitive γ}
    {f' : β → Except UnsupportedPrimitive δ} (hNext : ∀ a b, EndAlike (f a) (f' b)) :
    EndAlike (m >>= f) (m' >>= f') := by
  cases m with
  | error e =>
    obtain rfl := (h e).mp rfl
    exact error e
  | ok a =>
    cases m' with
    | error e => exact absurd ((h e).mpr rfl) (by simp)
    | ok b => exact hNext a b

theorem map (h : EndAlike m m') (f : α → γ) (f' : β → δ) :
    EndAlike (m >>= fun a => .ok (f a)) (m' >>= fun b => .ok (f' b)) :=
  h.bind fun a b => ok (f a) (f' b)

theorem mapM {f : ValueId → Except UnsupportedPrimitive α}
    {f' : ValueId → Except UnsupportedPrimitive β} (h : ∀ v, EndAlike (f v) (f' v))
    (vs : List ValueId) : EndAlike (vs.mapM f) (vs.mapM f') := by
  induction vs with
  | nil => exact ok [] []
  | cons v vs ih =>
    rw [List.mapM_cons, List.mapM_cons]
    exact (h v).bind fun a b => ih.map (a :: ·) (b :: ·)

end EndAlike

namespace Expansion

variable {x : Expansion} {recur : Recur}

/-- Whether a rule fails does not depend on the indices, if that of the operands does not. -/
theorem endAlike_applyRule
    (h : ∀ (scope scope' : IndexScope) (id : ValueId) (axes axes' : Axes),
      EndAlike (recur scope id axes) (recur scope' id axes'))
    (scope scope' : IndexScope) (id : ValueId) (rule : Rule) (operands : List ValueId)
    (shape : Shape) (axes axes' : Axes) :
    EndAlike (x.applyRule recur scope id rule operands shape axes)
      (x.applyRule recur scope' id rule operands shape axes') := by
  have hElementwise : ∀ operand, EndAlike (x.elementwise recur scope shape axes operand)
      (x.elementwise recur scope' shape axes' operand) := fun operand => h _ _ _ _ _
  cases rule with
  | elide => exact h _ _ _ _ _
  | reshape =>
    show EndAlike (x.reshape recur scope id (operands.getD 0 0) shape axes)
      (x.reshape recur scope' id (operands.getD 0 0) shape axes')
    unfold reshape
    simp only
    split
    · exact .error _
    · exact h _ _ _ _ _
  | operator op => exact (hElementwise _).bind fun l l' => (hElementwise _).map _ _
  | negate => exact (hElementwise _).map _ _
  | call fn => exact (hElementwise _).map _ _
  | indicator c => exact (hElementwise _).bind fun l l' => (hElementwise _).map _ _
  | contract paired => exact (h _ _ _ _ _).bind fun l l' => (h _ _ _ _ _).map _ _
  | reduce summed => exact (h _ _ _ _ _).map _ _
  | broadcast dims => exact h _ _ _ _ _
  | transpose permutation => exact h _ _ _ _ _
  | accumulate =>
    -- A single contribution is written as itself, which fails as little as several do.
    refine (EndAlike.mapM hElementwise _).bind fun built built' => ?_
    match built, built' with
    | [_], [_] => exact .ok _ _
    | [_], [] | [_], _ :: _ :: _ => exact .ok _ _
    | [], [_] | _ :: _ :: _, [_] => exact .ok _ _
    | [], [] | [], _ :: _ :: _ | _ :: _ :: _, [] | _ :: _ :: _, _ :: _ :: _ => exact .ok _ _

/-- **Whether a formula can be built, and what it fails with, does not depend on the indices** in
scope or on those of its axes. -/
theorem endAlike_buildWithin (x : Expansion) (fuel : Nat) (scope scope' : IndexScope) (id : ValueId)
    (axes axes' : Axes) :
    EndAlike (x.buildWithin fuel scope id axes) (x.buildWithin fuel scope' id axes') := by
  induction fuel using Nat.strong_induction_on generalizing scope scope' id axes axes' with
  | _ fuel ih =>
    rw [buildWithin.eq_def, buildWithin.eq_def]
    simp only
    -- Symbols, values and operations are looked up without regard to indices.
    generalize (if x.root = some id then none else x.names.symbol? id) = own
    cases own with
    | some symbol => exact .ok _ _
    | none =>
      cases x.graph.get? id with
      | none => exact .ok _ _
      | some value =>
        obtain ⟨content, s⟩ := value
        cases content with
        | leaf => exact .ok _ _
        | literal c => exact .ok _ _
        | op op operands =>
          cases fuel with
          | zero => exact .ok _ _
          | succ fuel =>
            simp only
            cases op.rule? with
            | none => exact .error _
            | some rule =>
              have hRecur := ih fuel (Nat.lt_succ_self fuel)
              exact endAlike_applyRule hRecur scope scope' id rule operands s axes axes'

end Expansion

/-- Whether the right-hand side of an equation can be built does not depend on the indices. -/
theorem Builder.endAlike_rightHandSide (b : Builder) (symbol : Symbol) (root : ValueId)
    (scope scope' : IndexScope) (axes axes' : Axes) :
    EndAlike (b.rightHandSide symbol root scope axes)
      (b.rightHandSide symbol root scope' axes') := by
  have hExpanded := Expansion.endAlike_buildWithin ⟨b.graph, b.names, some root⟩ b.graph.size
    scope scope' root axes axes'
  unfold rightHandSide
  simp only
  cases b.names.symbol? root with
  | none => exact hExpanded
  | some own =>
    simp only
    split
    · exact hExpanded
    · exact .ok _ _

/-- An equation is built if its right-hand side is. -/
theorem Builder.equation_fst (b : Builder) (kind : EquationKind) (symbol : Symbol)
    (root : ValueId) : (b.equation kind symbol root).1 =
      (b.rightHandSide symbol root (freeIndices (b.graph.shape root) b.scope).2
        (freeIndices (b.graph.shape root) b.scope).1) >>= fun rhs =>
        .ok ⟨kind, ⟨symbol, (freeIndices (b.graph.shape root) b.scope).1.indices⟩, rhs.expr⟩ := by
  unfold equation
  generalize freeIndices (b.graph.shape root) b.scope = opened
  obtain ⟨axes, scope⟩ := opened
  simp only
  cases b.rightHandSide symbol root scope axes <;> rfl

/-- An equation that cannot be built leaves the indices of its left-hand side in scope. -/
theorem Builder.equation_error {b : Builder} {kind : EquationKind} {symbol : Symbol}
    {root : ValueId} {e : UnsupportedPrimitive} (h : (b.equation kind symbol root).1 = .error e) :
    (b.equation kind symbol root).2.scope = (freeIndices (b.graph.shape root) b.scope).2 := by
  unfold equation at h ⊢
  generalize freeIndices (b.graph.shape root) b.scope = opened at h ⊢
  obtain ⟨axes, scope⟩ := opened
  simp only at h ⊢
  cases hRhs : b.rightHandSide symbol root scope axes with
  | ok rhs =>
    rw [hRhs] at h
    exact absurd h (by simp)
  | error e => rfl

/-! ## Queries -/

/-- What a builder may be asked for. -/
inductive Query where
  /-- The formula of a value whose axes carry the indices given. -/
  | build (id : ValueId) (axes : Axes)
  | equation (kind : EquationKind) (symbol : Symbol) (root : ValueId)

/-- A formula or an equation. -/
abbrev Answer := Except UnsupportedPrimitive (Expr ⊕ Equation)

/-- The answer of a builder, and the builder afterwards. -/
def Builder.ask (b : Builder) : Query → Answer × Builder
  | .build id axes => ((b.build id axes).map .inl, b)
  | .equation kind symbol root =>
    let (e, b) := b.equation kind symbol root
    (e.map .inr, b)

namespace Query

/-- The answer in place. -/
def ask (g : Graph) (names : NameTable) : Query → Building (Expr ⊕ Equation)
  | .build id axes => do return .inl (← Workspace.build g names id axes).expr
  | .equation kind symbol root => do return .inr (← Workspace.equation g names kind symbol root)

/-- The scope has room for the indices that the answer needs at once. -/
def HasRoom (g : Graph) (names : NameTable) (scope : IndexScope) : Query → Prop
  | .build id _ => Expansion.HasRoom ⟨g, names, none⟩ scope id
  | .equation kind symbol root => EquationPlan.HasRoom ⟨kind, symbol, root⟩ g names scope

/-- An answer needs no more indices than this. -/
def bound (g : Graph) : Query → Nat
  | .build id _ => ((List.range (id + 1)).map g.opened).sum
  | .equation _ _ root =>
    (g.shape root).nonSingleton.length + ((List.range (root + 1)).map g.opened).sum

variable {g : Graph} {names : NameTable} {scope scope' : IndexScope} {q : Query}

theorem hasRoom_of_bound (hGraph : g.Ordered) (h : scope.HasRoom (q.bound g)) :
    q.HasRoom g names scope := by
  cases q with
  | build id axes => exact fun n hNests => h.mono (hNests.le hGraph)
  | equation kind symbol root => exact fun n hNeeds => h.mono (hNeeds.le hGraph)

theorem HasRoom.letters_ne_nil (h : q.HasRoom g names scope) : scope.letters ≠ [] := by
  cases q with
  | build id axes => exact (h 0 (.here id)).letters_ne_nil
  | equation kind symbol root => exact (h _ .left).letters_ne_nil

/-- There is more room with fewer symbols in scope. -/
theorem HasRoom.of_fewer (h : q.HasRoom g names scope) (hLetters : scope'.letters = scope.letters)
    (hLive : scope'.live.length ≤ scope.live.length) : q.HasRoom g names scope' := by
  cases q with
  | build id axes => exact fun n hNests => (h n hNests).of_fewer hLetters hLive
  | equation kind symbol root => exact fun n hNeeds => (h n hNeeds).of_fewer hLetters hLive

/-- **A query in place is a query of a builder** with the same indices in scope, if there is room
for those that it needs, and afterwards no value counts as expanded. -/
theorem ask_eq {b : Builder} (hGraph : b.graph.WellFormed)
    (hRoom : q.HasRoom b.graph b.names b.scope) :
    (q.ask b.graph b.names).run ⟨b.scope, none⟩ =
      some ((b.ask q).1, ⟨(b.ask q).2.scope, none⟩) := by
  cases q with
  -- A formula leaves the scope as it was, so both sides end in the scope of the builder.
  | build id axes =>
    have hBuild : Workspace.Leaves (Workspace.build b.graph b.names id axes) ⟨b.scope, none⟩
        (Expansion.build ⟨b.graph, b.names, none⟩ b.scope id axes) :=
      Workspace.leaves_buildWithin (x := ⟨b.graph, b.names, none⟩) hGraph b.graph.size
        ⟨b.scope, none⟩ id axes rfl hRoom
    have hAnswer := hBuild.map fun f => (Sum.inl f.expr : Expr ⊕ Equation)
    refine Eq.trans hAnswer ?_
    show some (_, _) = some (Except.map Sum.inl (Except.map _ _), _)
    cases Expansion.build ⟨b.graph, b.names, none⟩ b.scope id axes <;> rfl
  | equation kind symbol root =>
    have hEquation := Workspace.run_equation (p := ⟨kind, symbol, root⟩) hGraph hRoom
    show (Workspace.equation b.graph b.names kind symbol root >>= _).run _ =
      some (Except.map Sum.inr (b.equation kind symbol root).1, _)
    cases hOutcome : (b.equation kind symbol root).1 with
    | ok e =>
      rw [hOutcome] at hEquation
      exact Workspace.run_bind_ok hEquation
    | error e =>
      rw [hOutcome] at hEquation
      exact Workspace.run_bind_error hEquation

/-- Whether a query fails, and with what, does not depend on the indices in scope. -/
theorem endAlike_ask (b : Builder) (scope : IndexScope) (q : Query) :
    EndAlike (b.ask q).1 (Builder.ask { b with scope := scope } q).1 := by
  cases q with
  | build id axes =>
    have h := Expansion.endAlike_buildWithin ⟨b.graph, b.names, none⟩ b.graph.size b.scope scope id
      axes axes
    exact (h.map _ _).map _ _
  | equation kind symbol root =>
    have h := b.endAlike_rightHandSide symbol root (Builder.freeIndices (b.graph.shape root)
      b.scope).2 (Builder.freeIndices (b.graph.shape root) scope).2
      (Builder.freeIndices (b.graph.shape root) b.scope).1
      (Builder.freeIndices (b.graph.shape root) scope).1
    show EndAlike (Except.map _ (b.equation kind symbol root).1)
      (Except.map _ (Builder.equation { b with scope := scope } kind symbol root).1)
    rw [Builder.equation_fst, Builder.equation_fst]
    exact (h.map _ _).map _ _

/-- A query brings letters neither in nor out, and closes what it opens, unless it is an equation
that cannot be built. -/
theorem scope_ask (b : Builder) (hLetters : b.scope.letters ≠ []) (q : Query) :
    (b.ask q).2.scope.letters = b.scope.letters ∧
      ((b.ask q).2.scope = b.scope ∨ ∃ kind symbol root e,
        q = .equation kind symbol root ∧ (b.ask q).1 = .error e) := by
  cases q with
  | build id axes => exact ⟨rfl, Or.inl rfl⟩
  | equation kind symbol root =>
    show (b.equation kind symbol root).2.scope.letters = _ ∧
      ((b.equation kind symbol root).2.scope = _ ∨ _)
    cases hEquation : (b.equation kind symbol root).1 with
    | ok e =>
      rw [Builder.equation_closes hLetters hEquation]
      exact ⟨rfl, Or.inl rfl⟩
    -- An equation that fails leaves its indices open; only the alphabet is the same.
    | error e =>
      refine ⟨?_, Or.inr ⟨kind, symbol, root, e, rfl, ?_⟩⟩
      · have hOpens := Builder.freeIndices_opens (b.graph.shape root) b.scope hLetters
        rw [Builder.equation_error hEquation]
        exact hOpens.letters_eq
      · show Except.map _ (b.equation kind symbol root).1 = _
        rw [hEquation]
        rfl

/-! ### Queries one after the other -/

variable (g : Graph) (names : NameTable)

/-- The workspace after queries, whatever came of them; none if one of them does not end. -/
def after (qs : List Query) (w : Workspace) : Option Workspace :=
  qs.foldlM (fun w q => ((q.ask g names).run w).map (·.2)) w

/-- The query is an equation that cannot be built. -/
def StaysOpen (alphabet : String) (q : Query) : Prop :=
  ∃ kind symbol root e w, q = .equation kind symbol root ∧
    (q.ask g names).run (Workspace.new alphabet) = some (.error e, w)

/-- Each query finds room for the indices that it needs in the workspace that the queries before it
leave. -/
def FindRoom (alphabet : String) (qs : List Query) : Prop :=
  ∀ earlier p later, qs = earlier ++ p :: later → ∀ w,
    after g names earlier (Workspace.new alphabet) = some w → p.HasRoom g names w.scope

variable (alphabet : String)

theorem after_concat (qs : List Query) (q : Query) (w : Workspace) :
    after g names (qs ++ [q]) w =
      (after g names qs w).bind fun w' => ((q.ask g names).run w').map (·.2) := by
  unfold after
  simp only [List.foldlM_append, List.foldlM_cons, List.foldlM_nil, bind_pure]
  rfl

/-- The last query finds room, and so do those before it. -/
theorem findRoom_concat {qs : List Query} {q : Query} :
    FindRoom g names alphabet (qs ++ [q]) ↔ FindRoom g names alphabet qs ∧
      ∀ w, after g names qs (Workspace.new alphabet) = some w → q.HasRoom g names w.scope := by
  constructor
  · intro h
    refine ⟨fun earlier p later hSplit => ?_, h qs q [] rfl⟩
    exact h earlier p (later ++ [q]) (by rw [hSplit, List.append_assoc, List.cons_append])
  · rintro ⟨hBefore, hLast⟩ earlier p later hSplit
    -- The query is the last one, or one of those before it.
    rcases List.eq_nil_or_concat later with rfl | ⟨rest, r, rfl⟩
    · obtain ⟨rfl, hSame⟩ := List.append_inj' hSplit rfl
      obtain rfl := (List.cons.inj hSame).1
      exact hLast
    · rw [List.concat_eq_append, ← List.cons_append, ← List.append_assoc] at hSplit
      exact hBefore earlier p rest (List.append_inj' hSplit rfl).1

theorem after_singleton (q : Query) (w : Workspace) :
    after g names [q] w = ((q.ask g names).run w).map (·.2) := after_concat g names [] q w

theorem findRoom_singleton {q : Query} :
    FindRoom g names alphabet [q] ↔ q.HasRoom g names (IndexScope.ofAlphabet alphabet) := by
  refine (@findRoom_concat g names alphabet [] q).trans ?_
  constructor
  · rintro ⟨-, h⟩
    exact h _ rfl
  · intro h
    refine ⟨fun earlier p later hSplit => absurd hSplit (by simp), ?_⟩
    intro w hw
    obtain rfl := Option.some.inj hw
    exact h

variable {g names alphabet}

/-- What holds of the workspace after queries that found room. -/
private theorem exists_scope_after (hGraph : g.WellFormed) {qs : List Query}
    (hRoom : FindRoom g names alphabet qs) :
    ∃ scope : IndexScope, scope.letters = alphabetLetters alphabet ∧
      after g names qs (Workspace.new alphabet) = some ⟨scope, none⟩ := by
  induction qs using List.reverseRecOn with
  | nil => exact ⟨IndexScope.ofAlphabet alphabet, rfl, rfl⟩
  | append_singleton qs q ih =>
    obtain ⟨hBefore, hLast⟩ := (findRoom_concat g names alphabet).mp hRoom
    obtain ⟨scope, hScope, hAfter⟩ := ih hBefore
    have hHere := hLast _ hAfter
    refine ⟨((⟨g, names, scope⟩ : Builder).ask q).2.scope, ?_, ?_⟩
    · rw [(scope_ask ⟨g, names, scope⟩ hHere.letters_ne_nil q).1]
      exact hScope
    · rw [after_concat, hAfter]
      show ((q.ask g names).run ⟨scope, none⟩).map (·.2) = _
      rw [ask_eq (b := ⟨g, names, scope⟩) hGraph hHere]
      rfl

/-- What a query finds room for after others, it finds room for as the first one. -/
private theorem HasRoom.first (h : q.HasRoom g names scope)
    (hLetters : scope.letters = alphabetLetters alphabet) :
    q.HasRoom g names (IndexScope.ofAlphabet alphabet) :=
  h.of_fewer hLetters.symm (Nat.zero_le _)

/-- The answer to the first query. -/
theorem ask_new (hGraph : g.WellFormed)
    (hRoom : q.HasRoom g names (IndexScope.ofAlphabet alphabet)) :
    (q.ask g names).run (Workspace.new alphabet) =
      some (((Builder.new g names alphabet).ask q).1,
        ⟨((Builder.new g names alphabet).ask q).2.scope, none⟩) :=
  ask_eq (b := Builder.new g names alphabet) hGraph hRoom

/-- A query after others, and as the first one. -/
private theorem exists_answers (hGraph : g.WellFormed) {before : List Query} {q : Query}
    (hRoom : FindRoom g names alphabet (before ++ [q])) :
    ∃ left answer w first w₀,
      after g names before (Workspace.new alphabet) = some left ∧ left.root = none ∧
        (q.ask g names).run left = some (answer, w) ∧
        (q.ask g names).run (Workspace.new alphabet) = some (first, w₀) ∧
        EndAlike answer first ∧ (¬ q.StaysOpen g names alphabet → w = left) := by
  obtain ⟨hBefore, hLast⟩ := (findRoom_concat g names alphabet).mp hRoom
  obtain ⟨scope, hScope, hAfter⟩ := exists_scope_after hGraph hBefore
  have hHere := hLast _ hAfter
  have hAsk := ask_eq (b := ⟨g, names, scope⟩) hGraph hHere
  have hFirst := ask_new hGraph (hHere.first hScope)
  have hAlike := endAlike_ask ⟨g, names, scope⟩ (IndexScope.ofAlphabet alphabet) q
  refine ⟨_, _, _, _, _, hAfter, rfl, hAsk, hFirst, hAlike, fun hClosed => ?_⟩
  -- What fails in this workspace fails in the one at the start.
  obtain hSame | ⟨kind, symbol, root, e, hEquation, hFails⟩ :=
    (scope_ask ⟨g, names, scope⟩ hHere.letters_ne_nil q).2
  · exact congrArg (Workspace.mk · none) hSame
  · have hFailsFirst : ((Builder.new g names alphabet).ask q).1 = .error e := (hAlike e).mp hFails
    rw [hFailsFirst] at hFirst
    exact absurd ⟨kind, symbol, root, e, _, hEquation, hFirst⟩ hClosed

/-- Queries of which none is an equation that fails leave the workspace as it was. -/
theorem after_eq_new (hGraph : g.WellFormed) {qs : List Query}
    (hRoom : FindRoom g names alphabet qs) (h : ∀ p ∈ qs, ¬ p.StaysOpen g names alphabet) :
    after g names qs (Workspace.new alphabet) = some (Workspace.new alphabet) := by
  induction qs using List.reverseRecOn with
  | nil => rfl
  | append_singleton qs q ih =>
    -- The last query comes after queries that left the workspace as it was at the start.
    have hBefore := ih ((findRoom_concat g names alphabet).mp hRoom).1
      fun p hp => h p (List.mem_append_left _ hp)
    obtain ⟨left, answer, w, first, w₀, hAfter, -, hAsk, -, -, hLeaves⟩ :=
      exists_answers hGraph hRoom
    obtain rfl := Option.some.inj (hAfter.symm.trans hBefore)
    rw [after_concat, hAfter, Option.bind_some, hAsk, hLeaves (h q (by simp))]
    rfl

/-- **Queries do not affect each other unless an equation fails.** Take an imported trace, any
symbols and any alphabet, and queries each of which finds room for the indices that it needs at
once. Then all of them end, no value counts as expanded between them, a query fails if and only if
it fails as the first one, with the same error, and unless it is an equation that fails it leaves
the workspace as it was. If no equation failed before, that is the workspace at the start, and the
query is answered as the first one. -/
theorem answers_independent {t : Trace} (h : ∃ text, Trace.ofText text = .ok t) (names : NameTable)
    (alphabet : String) (before : List Query) (q : Query)
    (hRoom : FindRoom t.graph names alphabet (before ++ [q])) :
    ∃ left answer w first w₀,
      after t.graph names before (Workspace.new alphabet) = some left ∧ left.root = none ∧
        (q.ask t.graph names).run left = some (answer, w) ∧
        (q.ask t.graph names).run (Workspace.new alphabet) = some (first, w₀) ∧
        EndAlike answer first ∧
        (¬ q.StaysOpen t.graph names alphabet → w = left) ∧
        ((∀ p ∈ before, ¬ p.StaysOpen t.graph names alphabet) →
          left = Workspace.new alphabet ∧ answer = first ∧ w = w₀) := by
  obtain ⟨text, hText⟩ := h
  have hGraph := (Trace.importable_of_ofText hText).wellFormed.graph
  obtain ⟨left, answer, w, first, w₀, hAfter, hRoot, hAsk, hFirst, hAlike, hLeaves⟩ :=
    exists_answers hGraph hRoom
  refine ⟨left, answer, w, first, w₀, hAfter, hRoot, hAsk, hFirst, hAlike, hLeaves, ?_⟩
  intro hBefore
  have hNew := after_eq_new hGraph ((findRoom_concat t.graph names alphabet).mp hRoom).1 hBefore
  obtain rfl := Option.some.inj (hAfter.symm.trans hNew)
  obtain ⟨rfl, rfl⟩ := Prod.mk.inj (Option.some.inj (hAsk.symm.trans hFirst))
  exact ⟨rfl, rfl, rfl⟩

/-! ### An equation that fails -/

/-- A function that cannot be written, of one input, and the sums of the rows of another. -/
def errorsBesideRowSums : Trace where
  name := "f"
  graph := ⟨#[⟨.leaf, [2]⟩, ⟨.leaf, [2, 3]⟩, ⟨.op (.foreign "erf") [0], [2]⟩,
    ⟨.op (.reduceSum [1]) [1], [2]⟩]⟩
  arguments := [⟨0, some "x", false⟩, ⟨1, some "y", false⟩]
  bindings := []
  tags := []
  outputs := [2, 3]

theorem errorsBesideRowSums_imported : ∃ text, Trace.ofText text = .ok errorsBesideRowSums :=
  Trace.exists_text_of_ofDraft (by decide) (by decide) (by decide) (by decide)

/-- A query finds room as the first one, if the letters of the usual alphabet suffice. -/
private theorem hasRoom_errorsBesideRowSums {names : NameTable} {q : Query}
    (h : q.bound errorsBesideRowSums.graph ≤ 256 * (alphabetLetters defaultAlphabet).length) :
    q.HasRoom errorsBesideRowSums.graph names (IndexScope.ofAlphabet defaultAlphabet) := by
  obtain ⟨text, hText⟩ := errorsBesideRowSums_imported
  exact hasRoom_of_bound (Trace.importable_of_ofText hText).wellFormed.graph.ordered
    (IndexScope.hasRoom_ofAlphabet h)

/-- The answer to the first query about the function. -/
private theorem ask_errorsBesideRowSums (names : NameTable) {q : Query}
    (h : q.bound errorsBesideRowSums.graph ≤ 256 * (alphabetLetters defaultAlphabet).length) :
    (q.ask errorsBesideRowSums.graph names).run (Workspace.new defaultAlphabet) =
      some (((Builder.new errorsBesideRowSums.graph names defaultAlphabet).ask q).1,
        ⟨((Builder.new errorsBesideRowSums.graph names defaultAlphabet).ask q).2.scope, none⟩) := by
  obtain ⟨text, hText⟩ := errorsBesideRowSums_imported
  exact ask_new (Trace.importable_of_ofText hText).wellFormed.graph (hasRoom_errorsBesideRowSums h)

/-- A formula that cannot be built does not stay in the way of an equation. -/
theorem answers_independent_failed_build :
    let names := (resolveNames "f" errorsBesideRowSums.arguments []).1
    let failing : Query := .build 2 [some ⟨'i', 0⟩]
    let sums : Query := .equation .output (.plain "g") 3
    let start := Workspace.new defaultAlphabet
    FindRoom errorsBesideRowSums.graph names defaultAlphabet ([failing] ++ [sums]) ∧
      ∃ left w,
        (failing.ask errorsBesideRowSums.graph names).run start =
          some (.error (.foreign "erf" 2), left) ∧
        (sums.ask errorsBesideRowSums.graph names).run left =
          some (.ok (.inr ⟨.output, ⟨.plain "g", [⟨'i', 0⟩]⟩,
            .sum [⟨'j', 0⟩] (.var ⟨.plain "y", [⟨'i', 0⟩, ⟨'j', 0⟩]⟩)⟩), w) := by
  intro names failing sums start
  have hFailing : (failing.ask errorsBesideRowSums.graph names).run start =
      some (.error (.foreign "erf" 2), start) :=
    (ask_errorsBesideRowSums names (by decide +kernel)).trans rfl
  have hAfter : after errorsBesideRowSums.graph names [failing] start = some start := by
    rw [after_singleton, hFailing]
    rfl
  -- Both queries find the workspace of the start.
  have hRoom : FindRoom errorsBesideRowSums.graph names defaultAlphabet ([failing] ++ [sums]) := by
    refine (findRoom_concat _ _ _).mpr ⟨(findRoom_singleton _ _ _).mpr ?_, ?_⟩
    · exact hasRoom_errorsBesideRowSums (by decide +kernel)
    · intro w hw
      obtain rfl := Option.some.inj (hAfter.symm.trans hw)
      exact hasRoom_errorsBesideRowSums (by decide +kernel)
  obtain ⟨left, answer, w, first, w₀, hLeft, -, hAsk, hFirst, -, -, hAsFirst⟩ :=
    answers_independent errorsBesideRowSums_imported names defaultAlphabet [failing] sums hRoom
  -- The query that fails asks for no equation.
  have hCloses : ∀ p ∈ [failing],
      ¬ p.StaysOpen errorsBesideRowSums.graph names defaultAlphabet := by
    rintro p hp ⟨kind, symbol, root, e, w, hEquation, -⟩
    rw [List.mem_singleton.mp hp] at hEquation
    exact absurd hEquation (by simp [failing])
  obtain ⟨rfl, rfl, rfl⟩ := hAsFirst hCloses
  have hSums := hFirst.symm.trans (ask_errorsBesideRowSums names (by decide +kernel))
  exact ⟨hRoom, start, _, hFailing, hAsk.trans (hSums.trans rfl)⟩

/-- **An equation that fails stays in the way.** Its index `i` is not closed, and the next equation
is not about `i` and `j`, as it is at the start, but about `j` and `k`. -/
theorem equation_stays_open :
    let names := (resolveNames "f" errorsBesideRowSums.arguments []).1
    let failing : Query := .equation .output (.plain "f") 2
    let sums : Query := .equation .output (.plain "g") 3
    let start := Workspace.new defaultAlphabet
    Trace.ofDraft errorsBesideRowSums.toDraft = .ok errorsBesideRowSums ∧
      start.scope.live = [] ∧
      (∃ w, (sums.ask errorsBesideRowSums.graph names).run start =
        some (.ok (.inr ⟨.output, ⟨.plain "g", [⟨'i', 0⟩]⟩,
          .sum [⟨'j', 0⟩] (.var ⟨.plain "y", [⟨'i', 0⟩, ⟨'j', 0⟩]⟩)⟩), w)) ∧
      ∃ left w, (failing.ask errorsBesideRowSums.graph names).run start =
          some (.error (.foreign "erf" 2), left) ∧
        left.scope.live = [⟨'i', 0⟩] ∧
        (sums.ask errorsBesideRowSums.graph names).run left =
          some (.ok (.inr ⟨.output, ⟨.plain "g", [⟨'j', 0⟩]⟩,
            .sum [⟨'k', 0⟩] (.var ⟨.plain "y", [⟨'j', 0⟩, ⟨'k', 0⟩]⟩)⟩), w) := by
  intro names failing sums start
  have hSums := ask_errorsBesideRowSums names (q := sums) (by decide +kernel)
  have hFailing := ask_errorsBesideRowSums names (q := failing) (by decide +kernel)
  obtain ⟨text, hText⟩ := errorsBesideRowSums_imported
  have hGraph := (Trace.importable_of_ofText hText).wellFormed.graph
  -- The second query finds the scope that the first one left.
  let left : Builder := ⟨errorsBesideRowSums.graph, names,
    ((Builder.new errorsBesideRowSums.graph names defaultAlphabet).ask failing).2.scope⟩
  have hRoom : sums.HasRoom left.graph left.names left.scope :=
    hasRoom_of_bound hGraph.ordered
      ⟨by decide +kernel, by decide +kernel, by decide +kernel⟩
  exact ⟨by decide, rfl, ⟨_, hSums.trans rfl⟩, _, _, hFailing.trans rfl, rfl,
    (ask_eq (b := left) hGraph hRoom).trans rfl⟩

end Query

end ArrayEquations
