import ArrayEquations.Proofs.BuiltFormula

/-!
# ArrayEquations — equations are true

The left-hand side of an equation gives every axis of extent other than one an index of
its own. Whatever positions these indices are given, the right-hand side has the value of
the root's entry there.

## Main results

* `Axes.Fits.position_mem_box` — indices below their extents give a position of the array.
* `Builder.equation_sound` — both sides of an equation agree.
-/

namespace ArrayEquations

/-! ## Indices of the left-hand side -/

/-- The indices of axes, each below the extent of its axis. -/
def Assignment.Within (σ : Assignment) (indices : List Index) (s : Shape) : Prop :=
  List.Forall₂ (fun i extent => σ i < extent) indices s.nonSingleton

theorem Axes.Fits.position_mem_box {axes : Axes} {live : List Index} {s : Shape}
    (h : axes.Fits live s) {σ : Assignment} (hWithin : σ.Within axes.indices s) :
    axes.position σ ∈ s.box := by
  induction h using Axes.Fits.alongAxes with
  | nil => exact Finset.mem_singleton_self _
  | single _ ih => exact Shape.cons_mem_box.mpr ⟨Nat.one_pos, ih hWithin⟩
  | indexed hn _ _ ih =>
    rw [Assignment.Within, Shape.nonSingleton_cons hn] at hWithin
    obtain ⟨hx, hWithin⟩ := List.forall₂_cons.mp hWithin
    exact Shape.cons_mem_box.mpr ⟨hx, ih hWithin⟩

namespace Builder

theorem freeIndices_opens (s : Shape) (scope : IndexScope) (hLetters : scope.letters ≠ []) :
    scope.Opens (freeIndices s scope).1.indices (freeIndices s scope).2 := by
  induction s generalizing scope with
  | nil => exact .nil scope
  | cons n s ih =>
    rw [freeIndices]
    split
    · exact ih scope hLetters
    · exact .cons hLetters (ih scope.fresh.2 hLetters)

theorem freeIndices_fits (s : Shape) (scope : IndexScope) (hLetters : scope.letters ≠ []) :
    (freeIndices s scope).1.Fits (freeIndices s scope).2.live s := by
  induction s generalizing scope with
  | nil => exact .nil _
  | cons n s ih =>
    rw [freeIndices]
    by_cases hn : n = 1
    · subst hn
      rw [if_pos rfl]
      exact Axes.Fits.cons_iff.mpr ⟨.of_one rfl, ih scope hLetters⟩
    · rw [if_neg hn]
      have hNext : scope.next ∈ (freeIndices s scope.fresh.2).2.live :=
        (freeIndices_opens s scope.fresh.2 hLetters).subset
          (List.mem_append_right _ List.mem_cons_self)
      exact Axes.Fits.cons_iff.mpr
        ⟨.of_ne_one hn ⟨_, hNext, rfl⟩, ih scope.fresh.2 hLetters⟩

/-- An equation that is built closes every scope that it opened. -/
theorem equation_closes {b : Builder} (hLetters : b.scope.letters ≠ []) {kind : EquationKind}
    {symbol : Symbol} {root : ValueId} {e : Equation}
    (h : (b.equation kind symbol root).1 = .ok e) : (b.equation kind symbol root).2 = b := by
  have hOpens := freeIndices_opens (b.graph.shape root) b.scope hLetters
  obtain ⟨axes, inner, f, hAxes, -, -, hReleased⟩ := equation_eq_ok h
  rw [hAxes] at hOpens
  rw [hReleased, hOpens.release]

/-! ## Both sides -/

/-- The right-hand side is sound for the root. -/
theorem rightHandSide_sound {R : Type*} [CommRing R] (I : Interpretation R)
    (inputs : ValueId → Position → R) {b : Builder} (hGraph : b.graph.WellFormed)
    {symbol : Symbol} {root : ValueId} (hRoot : root < b.graph.size) {scope : IndexScope}
    (hLetters : scope.letters ≠ []) {axes : Axes}
    (hFits : axes.Fits scope.live (b.graph.shape root)) {f : SourcedExpr}
    (h : b.rightHandSide symbol root scope axes = .ok f) :
    Expansion.Sound ⟨b.graph, b.names, some root⟩ I inputs root axes f := by
  rcases rightHandSide_eq_ok h with ⟨-, hBuild⟩ | ⟨own, hOwn, -, rfl⟩
  · refine Expansion.build_sound hGraph ?_ hLetters hFits hBuild
    intro r hr
    rwa [← Option.some.inj hr]
  · exact Expansion.sound_reference hFits (by rw [hOwn]; rfl)

/-- **Both sides of an equation agree.** For an imported trace, any name table, root and
left-hand symbol, starting with no index in scope: the indices on the left are different,
one for each axis of extent other than one. Whatever positions below the extents they get,
the right-hand side is the root's entry there. The right-hand side is read with its symbols
standing for the values they are the symbols of, and its summations running over the axes
they were opened for. -/
theorem equation_sound {draft : TraceDraft} {t : Trace} (hTrace : Trace.ofDraft draft = .ok t)
    {names : NameTable} {alphabet : String} {kind : EquationKind} {symbol : Symbol}
    {root : ValueId} (hRoot : root < t.graph.size) {e : Equation}
    (h : ((Builder.new t.graph names alphabet).equation kind symbol root).1 = .ok e) :
    ∃ f : SourcedExpr,
      (Builder.new t.graph names alphabet).rightHandSide symbol root
        (freeIndices (t.graph.shape root) (.ofAlphabet alphabet)).2
        (freeIndices (t.graph.shape root) (.ofAlphabet alphabet)).1 = .ok f ∧
      f.expr = e.rhs ∧ f.WellSourced t.graph names ∧
      e.lhs.symbol = symbol ∧ e.lhs.indices.Nodup ∧
      e.lhs.indices.length = (t.graph.shape root).nonSingleton.length ∧
      ∀ {R : Type*} [CommRing R] (I : Interpretation R) (inputs : ValueId → Position → R)
        (σ : Assignment), σ.Within e.lhs.indices (t.graph.shape root) →
        f.value I t.graph (t.graph.entry I inputs) σ =
          t.graph.entry I inputs root
            ((t.graph.shape root).spread (e.lhs.indices.map σ)) := by
  have hGraph := (Trace.wellFormed_of_ofDraft hTrace).graph
  have hLetters : (IndexScope.ofAlphabet alphabet).letters ≠ [] :=
    alphabetLetters_ne_nil alphabet
  have hOpens := freeIndices_opens (t.graph.shape root) _ hLetters
  have hFits := freeIndices_fits (t.graph.shape root) _ hLetters
  have hInner := hOpens.letters_eq ▸ hLetters
  simp only [Builder.new] at h
  obtain ⟨axes, inner, f, hAxes, hRhs, rfl, -⟩ := equation_eq_ok h
  simp only at hAxes
  rw [hAxes] at hOpens hFits hInner ⊢
  -- The sources do not depend on the ring, so any reading shows them.
  let anyReading : Interpretation Int :=
    ⟨fun _ => 0, fun _ _ => 0, fun _ _ => 0, fun _ _ => 0, fun _ _ _ => 0, fun _ _ _ _ => 0⟩
  have hSourced := (rightHandSide_sound anyReading (fun _ _ => 0) hGraph hRoot hInner hFits
    hRhs).1
  refine ⟨f, hRhs, rfl, hSourced, rfl, hOpens.nodup, hFits.length_indices, ?_⟩
  intro R _ I inputs σ hWithin
  have hValue := (rightHandSide_sound I inputs hGraph hRoot hInner hFits hRhs).2
  rw [hValue σ (hFits.position_mem_box hWithin), hFits.spread_indices]

/-- A document of a matrix whose rows are added up. -/
def rowSumDraft : TraceDraft where
  name := "rows"
  arguments := [⟨0, some "x", false⟩]
  values := [.leaf 0 [2, 3], .op 1 "reduce_sum" [0] [2] { axes := some [1] }]
  bindings := []
  tags := []
  outputs := [1]

/-- The trace of that document. -/
def rowSumTrace : Trace where
  name := "rows"
  graph := ⟨#[⟨.leaf, [2, 3]⟩, ⟨.op (.reduceSum [1]) [0], [2]⟩]⟩
  arguments := [⟨0, some "x", false⟩]
  bindings := []
  tags := []
  outputs := [1]

/-- The equation of the row sums has one index on the left and is true for both rows. -/
theorem equation_sound_rowSum :
    ∃ (e : Equation) (f : SourcedExpr),
      ((Builder.new rowSumTrace.graph ⟨[(0, .plain "x")], [], .plain "rows"⟩ "ij").equation
        .output (.plain "s") 1).1 = .ok e ∧
      f.expr = e.rhs ∧ e.lhs.indices = [⟨'i', 0⟩] ∧
      ∀ (I : Interpretation Int) (inputs : ValueId → Position → Int), ∀ row < 2,
        f.value I rowSumTrace.graph (rowSumTrace.graph.entry I inputs) (fun _ => row) =
          rowSumTrace.graph.entry I inputs 1 [row] := by
  have hTrace : Trace.ofDraft rowSumDraft = .ok rowSumTrace := by decide
  obtain ⟨f, -, hExpr, -, -, -, -, hValue⟩ :=
    @equation_sound rowSumDraft rowSumTrace hTrace ⟨[(0, .plain "x")], [], .plain "rows"⟩ "ij"
      .output (.plain "s") 1 (by decide) _ rfl
  refine ⟨_, f, rfl, hExpr, by decide, ?_⟩
  intro I inputs row hRow
  exact hValue I inputs _ (.cons hRow .nil)

end Builder

/-- **The equations of a program are those that are planned for it, in order**, and all are built
with the same indices in scope. -/
theorem buildPlanned_each {b : Builder} (hLetters : b.scope.letters ≠ [])
    {plans : List EquationPlan} {program : Program} (h : buildPlanned b plans = .ok program) :
    List.Forall₂ (fun p e => (b.equation p.kind p.symbol p.root).1 = .ok e) plans program := by
  induction plans generalizing program with
  | nil =>
    obtain rfl := Except.ok.inj h
    exact .nil
  | cons p plans ih =>
    obtain ⟨e, es, hOne, hRest, rfl⟩ := buildPlanned_cons_eq_ok h
    rw [Builder.equation_closes hLetters hOne] at hRest
    exact .cons hOne (ih hRest)

end ArrayEquations
