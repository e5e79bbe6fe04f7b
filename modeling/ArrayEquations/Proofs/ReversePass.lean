import ArrayEquations.Proofs.Extension
import ArrayEquations.Proofs.ReverseRule

/-!
# ArrayEquations — the recorded way back

The recorded reverse differentiation follows the cotangents that it stands for, step by
step: each recorded cotangent holds the entries of the planned one, and where the plan ends
at a foreign operation so does the recording. This holds with seeds that are inputs and
with the constant seed of a gradient.

## Main definitions

* `Reverse.Holds` — the recorded cotangents are the planned ones.
* `Reverse.IsCotangent` — an output of the derivative.

## Main results

* `Reverse.follows_recordReverse` — a differentiation with seeds that are inputs.
* `Reverse.follows_recordGradient` — a gradient.
-/

namespace ArrayEquations

namespace Reverse

open Recording Differentiating

variable {K : Type*} [Field K] {I : Interpretation K} {inputs : ValueId → Position → K}
  {x : Reverse} {r r₀ : Recorder} {c : Cotangents K} {d : Derivatives}

/-! ## Recorded cotangents -/

/-- The same values have a recorded cotangent and a planned one, with the same entries. -/
structure Holds (I : Interpretation K) (inputs : ValueId → Position → K) (x : Reverse)
    (c : Cotangents K) (d : Derivatives) (g : Graph) : Prop where
  of_some : ∀ v w, d v = some w → ∃ e, c v = some e ∧ g.Fills I inputs (x.graph.shape v) w e
  of_none : ∀ v, d v = none → c v = none

theorem Holds.extend {g g' : Graph} (h : Holds I inputs x c d g) (hExtends : g.Extends g') :
    Holds I inputs x c d g' := by
  refine ⟨?_, h.of_none⟩
  intro v w hd
  obtain ⟨e, hc, hFills⟩ := h.of_some v w hd
  exact ⟨e, hc, hFills.extend hExtends⟩

theorem holds_none (I : Interpretation K) (inputs : ValueId → Position → K) (x : Reverse)
    (g : Graph) : Holds I inputs x Cotangents.none Derivatives.none g :=
  ⟨fun _ _ h => absurd h (by simp [Derivatives.none]), fun _ _ => rfl⟩

theorem Holds.set {g : Graph} (h : Holds I inputs x c d g) {v w : ValueId} {e : Position → K}
    (hFills : g.Fills I inputs (x.graph.shape v) w (c.entries v + e)) :
    Holds I inputs x (c.add v e) (d.set v w) g := by
  unfold Cotangents.add Derivatives.set
  constructor
  · intro u w' hd
    by_cases hEq : u = v
    · rw [if_pos hEq] at hd
      rw [if_pos hEq, hEq, ← Option.some.inj hd]
      exact ⟨_, rfl, hFills⟩
    · rw [if_neg hEq] at hd ⊢
      exact h.of_some u w' hd
  · intro u hd
    by_cases hEq : u = v
    · rw [if_pos hEq] at hd
      exact absurd hd (by simp)
    · rw [if_neg hEq] at hd ⊢
      exact h.of_none u hd

/-- A contribution is added to what a value has already. -/
theorem ensures_accumulate (h : Holds I inputs x c d r.graph) {v w : ValueId} {e : Position → K}
    (hFills : r.graph.Fills I inputs (x.graph.shape v) w e) :
    Ensures (accumulate d v w) r fun d' r' =>
      r.Extends r' ∧ Holds I inputs x (c.add v e) d' r'.graph := by
  unfold accumulate
  cases hd : d v with
  | none =>
    refine ⟨Recorder.Extends.refl r, h.set (hFills.congr ?_)⟩
    intro p _
    rw [Cotangents.entries, h.of_none v hd]
    exact (zero_add _).symm
  | some before =>
    obtain ⟨e', hc, hBefore⟩ := h.of_some v before hd
    apply (ensures_elementwise_left (combines_accumulate I) hBefore hFills.spreads).bind_extends
    intro sum r' hExtends hSum
    refine ⟨Recorder.Extends.refl r', (h.extend hExtends.graph).set (hSum.congr ?_)⟩
    intro p _
    rw [Cotangents.entries, hc]
    rfl

theorem ensures_accumulateAll (h : Holds I inputs x c d r.graph)
    {shares : List (ValueId × (Position → K))} {given : List (ValueId × ValueId)}
    (hGiven : List.Forall₂ (Gives I inputs x r.graph) shares given) :
    Ensures (accumulateAll d given) r fun d' r' =>
      r.Extends r' ∧ Holds I inputs x (c.addAll shares) d' r'.graph := by
  unfold accumulateAll
  induction shares generalizing given c d r with
  | nil =>
    cases hGiven
    exact ⟨Recorder.Extends.refl r, h⟩
  | cons share shares ih =>
    cases hGiven with
    | cons hOne hRest =>
      rename_i gift given
      obtain ⟨hTarget, hFills⟩ := hOne
      rw [List.foldlM_cons]
      -- The gift names the value it is for, which is the one that the share is for.
      have hStep := ensures_accumulate h hFills
      rw [← hTarget] at hStep
      apply hStep.bind_extends
      intro d₁ r₁ hExtends₁ h₁
      rw [hTarget] at h₁
      exact ih h₁ (hRest.imp fun _ _ hGives => hGives.extend hExtends₁.graph)

/-! ## The steps -/

/-- The invariant of the way back: the differentiation is underway, and the recorded cotangents
are the planned ones. -/
structure Carries (I : Interpretation K) (inputs : ValueId → Position → K) (x : Reverse)
    (r₀ : Recorder) (c : Cotangents K) (d : Derivatives) (r : Recorder) : Prop where
  recorder : r₀.Extends r
  underway : Underway I x r
  holds : Holds I inputs x c d r.graph

/-- The recorded step follows the planned one. -/
theorem follows_carryBack (hDiv : ∀ y z, I.div y z = y / z) (bound : List ValueId) {v : ValueId}
    (h : Carries I inputs x r₀ c d r) :
    Follows (x.carryBack bound d v) r (x.handOn I inputs c v) (Carries I inputs x r₀) := by
  unfold carryBack
  cases hd : d v with
  | none =>
    rw [handOn_of_none (h.holds.of_none v hd)]
    exact follows_ok (yields_pure h)
  | some ct =>
    obtain ⟨e, hc, hCt⟩ := h.holds.of_some v ct hd
    cases hOp : x.graph.op? v with
    | none =>
      rw [handOn_of_leaf hOp]
      exact follows_ok (yields_pure h)
    | some made =>
      obtain ⟨op, operands⟩ := made
      -- Whether the value gets a tag or not, the contributions come next.
      have hRest : ∀ {r₁ : Recorder}, r.Extends r₁ → Follows (do
          accumulateAll d (← x.contributions op operands v ct)) r₁ (x.handOn I inputs c v)
            (Carries I inputs x r₀) := by
        intro r₁ hExtends
        by_cases hForeign : ∃ name, op = .foreign name
        · obtain ⟨name, rfl⟩ := hForeign
          rw [handOn_of_foreign hc hOp]
          exact follows_error (Throws.bind (throws_throw (.noRule name)))
        · have hForeign : ∀ name, op ≠ .foreign name := fun name hEq => hForeign ⟨name, hEq⟩
          rw [handOn_of_op hc hOp hForeign]
          apply follows_ok
          apply Yields.bind (yields_contributions hDiv ⟨h.underway.extend hExtends,
            Graph.op?_eq_some hOp, hCt.extend hExtends.graph⟩ hForeign)
          rintro given r₂ ⟨hExtends₂, hGiven⟩
          have hExtends₂ := hExtends.trans hExtends₂
          apply Yields.imp (yields_lift (ensures_accumulateAll
            (h.holds.extend hExtends₂.graph) hGiven))
          rintro d' r₃ ⟨hExtends₃, hHolds⟩
          have hAll := hExtends₂.trans hExtends₃
          exact ⟨h.recorder.trans hAll, h.underway.extend hAll, hHolds⟩
      simp only
      split
      · apply (yields_lift (ensures_tag .cotangent v ct)).bind_follows
        rintro ⟨⟩ r₁ ⟨hExtends, -⟩
        exact hRest hExtends
      · exact hRest (Recorder.Extends.refl r)

/-! ## Outputs of the derivative -/

/-- The output for an argument: its cotangent, or the constant zero if it has none. -/
def IsCotangent (I : Interpretation K) (inputs : ValueId → Position → K) (g : Graph)
    (c : Cotangents K) (g' : Graph) (a w : ValueId) : Prop :=
  (∃ e, c a = some e ∧ g'.Fills I inputs (g.shape a) w e) ∨
    c a = none ∧ g'.get? w = some ⟨.literal 0, []⟩

theorem IsCotangent.extend {g g' g'' : Graph} {a w : ValueId}
    (h : IsCotangent I inputs g c g' a w) (hExtends : g'.Extends g'') :
    IsCotangent I inputs g c g'' a w := by
  rcases h with ⟨e, hc, hFills⟩ | ⟨hc, hGet⟩
  · exact Or.inl ⟨e, hc, hFills.extend hExtends⟩
  · exact Or.inr ⟨hc, hExtends.get?_of_some hGet⟩

theorem IsCotangent.lt {g g' : Graph} {a w : ValueId} (h : IsCotangent I inputs g c g' a w) :
    w < g'.size := by
  rcases h with ⟨e, -, hFills⟩ | ⟨-, hGet⟩
  · exact hFills.lt
  · exact Graph.lt_size_of_get? hGet

theorem IsCotangent.all_lt {g g' : Graph} {wrt ws : List ValueId}
    (h : List.Forall₂ (IsCotangent I inputs g c g') wrt ws) : ∀ w ∈ ws, w < g'.size := by
  induction h with
  | nil => simp
  | cons hOne _ ih => exact List.forall_mem_cons.mpr ⟨hOne.lt, ih⟩

theorem ensures_argumentCotangent (h : Holds I inputs x c d r.graph) (a : ValueId) :
    Ensures (argumentCotangent d a) r fun w r' =>
      r.Extends r' ∧ IsCotangent I inputs x.graph c r'.graph a w := by
  apply Ensures.imp (ensures_knownOrZero .cotangent a (d a))
  rintro w r' ⟨hExtends, hKnown | ⟨hNone, hZero⟩⟩
  · exact ⟨hExtends, Or.inl ((h.extend hExtends.graph).of_some a w hKnown)⟩
  · exact ⟨hExtends, Or.inr ⟨h.of_none a hNone, hZero⟩⟩

theorem ensures_argumentCotangents (h : Holds I inputs x c d r.graph) (wrt : List ValueId) :
    Ensures (argumentCotangents d wrt) r fun ws r' => r.Extends r' ∧
      List.Forall₂ (IsCotangent I inputs x.graph c r'.graph) wrt ws := by
  apply ensures_mapM_forall₂ (R := IsCotangent I inputs x.graph c) IsCotangent.extend
  intro a _ r₁ hExtends
  exact ensures_argumentCotangent (h.extend hExtends.graph) a

/-- What is recorded once the seeds are there. -/
theorem follows_wayBack (hDiv : ∀ y z, I.div y z = y / z) (bound wrt : List ValueId)
    (h : Carries I inputs x r₀ c d r) :
    Follows (do
      let cotangents ← x.graph.ids.reverse.foldlM (x.carryBack bound) d
      argumentCotangents cotangents wrt) r (x.graph.ids.reverse.foldlM (x.handOn I inputs) c)
        fun c' ws r' => r₀.Extends r' ∧
          List.Forall₂ (IsCotangent I inputs x.graph c' r'.graph) wrt ws := by
  have hLoop : Follows (x.graph.ids.reverse.foldlM (x.carryBack bound) d) r
      (x.graph.ids.reverse.foldlM (x.handOn I inputs) c) (Carries I inputs x r₀) :=
    Follows.foldlM h fun v c d r hCarries => follows_carryBack hDiv bound hCarries
  apply hLoop.bind_yields
  intro c' d' r' hCarries
  apply Yields.imp (yields_lift (ensures_argumentCotangents hCarries.holds wrt))
  rintro ws r'' ⟨hExtends, hAll⟩
  exact ⟨hCarries.recorder.trans hExtends, hAll⟩

/-! ## Seeds -/

/-- The seed of an output is added to what it has already, if it depends on a chosen argument. -/
private theorem ensures_addSeed (h : Holds I inputs x c d r.graph) {o w : ValueId}
    {e : Position → K} (hFills : r.graph.Fills I inputs (x.graph.shape o) w e) :
    Ensures (if x.depends.contains o then accumulate d o w else return d) r fun d' r' =>
      r.Extends r' ∧ Holds I inputs x (c.addAll (x.share o e)) d' r'.graph := by
  unfold share
  split
  · exact ensures_accumulate h hFills
  · exact ⟨Recorder.Extends.refl r, h⟩

private theorem seeded_append (x : Reverse) (outputs : List (ValueId × (Position → K)))
    (o : ValueId × (Position → K)) :
    x.seeded (outputs ++ [o]) = (x.seeded outputs).addAll (x.share o.1 o.2) := by
  simp [seeded, Cotangents.addAll]

/-- The arrays that seeds stand for, each with its output. -/
def seedArrays (inputs : ValueId → Position → K) (outputs seeds : List ValueId) :
    List (ValueId × (Position → K)) :=
  (outputs.zip seeds).map fun y => (y.1, inputs y.2)

/-- The inputs hold the arrays at the seeds, each on the shape of its output. -/
def HoldArrays (inputs arrays : ValueId → Position → K) (g : Graph)
    (outputs seeds : List ValueId) : Prop :=
  ∀ y ∈ outputs.zip seeds, ∀ p ∈ (g.shape y.1).box, inputs y.2 p = arrays y.2 p

/-- With seeds that are inputs, the recorded cotangents of the outputs are those inputs. -/
private theorem ensures_seedInputs (hUnit : x.unit = none) (hGraph : x.graph.Extends r.graph)
    {outputs : List ValueId} (hOutputs : ∀ o ∈ outputs, o < x.graph.size) :
    Ensures (x.seedOutputs outputs) r fun d r' => ∃ seeds, r.Extends r' (seedArguments seeds) ∧
      x.graph.Seeds r'.graph outputs seeds ∧
      ∀ arrays, HoldArrays inputs arrays x.graph outputs seeds →
        Holds I inputs x (x.seeded (seedArrays arrays outputs seeds)) d r'.graph := by
  unfold seedOutputs
  apply Ensures.foldlM fun before d r' => ∃ seeds, r.Extends r' (seedArguments seeds) ∧
    x.graph.Seeds r'.graph before seeds ∧
    ∀ arrays, HoldArrays inputs arrays x.graph before seeds →
      Holds I inputs x (x.seeded (seedArrays arrays before seeds)) d r'.graph
  · exact ⟨[], Recorder.Extends.refl r, Graph.Seeds.nil _ _,
      fun _ _ => holds_none I inputs x r.graph⟩
  · rintro before o after d r₁ hSplit ⟨seeds, hExtends, hSeeds, hHolds⟩
    have ho : o < x.graph.size := hOutputs o (by rw [hSplit]; simp)
    have hGraph₁ := hGraph.trans hExtends.graph
    unfold seedOutput
    rw [hUnit]
    apply Ensures.bind (ensures_derivativeInput .cotangent o)
    rintro w r₂ ⟨hExtends₂, hw, hGet⟩
    rw [hGraph₁.shape_eq ho] at hGet
    have hFills : r₂.graph.Fills I inputs (x.graph.shape o) w (inputs w) :=
      ⟨Graph.lt_size_of_get? hGet, Graph.shape_of_get? hGet, fun p _ => Graph.entry_of_leaf hGet p⟩
    have hZip : (before ++ [o]).zip (seeds ++ [w]) = before.zip seeds ++ [(o, w)] :=
      List.zip_append hSeeds.length_eq.symm
    -- The arrays that the seeds hold are given last, so this is shown for all of them.
    have hAdd : ∀ arrays, HoldArrays inputs arrays x.graph (before ++ [o]) (seeds ++ [w]) →
        Ensures (if x.depends.contains o then accumulate d o w else return d) r₂ fun d' r₃ =>
          r₂.Extends r₃ ∧
            Holds I inputs x (x.seeded (seedArrays arrays (before ++ [o]) (seeds ++ [w]))) d'
              r₃.graph := by
      intro arrays hArrays
      unfold HoldArrays at hArrays
      rw [hZip] at hArrays
      have hBefore := hHolds arrays fun y hy => hArrays y (List.mem_append_left _ hy)
      have hAppend := seeded_append x (seedArrays arrays before seeds) (o, arrays w)
      rw [seedArrays, hZip, List.map_append]
      rw [seedArrays] at hAppend
      simp only [List.map_cons, List.map_nil] at hAppend ⊢
      rw [hAppend]
      exact ensures_addSeed (hBefore.extend hExtends₂.graph)
        (hFills.congr (hArrays (o, w) (by simp)))
    obtain ⟨hExtends₃, -⟩ := hAdd inputs fun _ _ _ _ => rfl
    have hAll := hExtends.trans (hExtends₂.trans hExtends₃)
    refine ⟨seeds ++ [w], ?_, ?_, fun arrays hArrays => (hAdd arrays hArrays).2⟩
    · rw [List.append_nil] at hAll
      rw [seedArguments, List.map_append]
      exact hAll
    · exact (hSeeds.push hGraph₁ hExtends₂.graph hw hGet).extend hExtends₃.graph

/-- The cotangents that a reverse differentiation carries back, from arrays for the outputs. -/
def plan (I : Interpretation K) (inputs : ValueId → Position → K) (g : Graph)
    (wrt : List ValueId) (outputs : List (ValueId × (Position → K))) :
    Except DerivativeError (Cotangents K) :=
  let x : Reverse := ⟨g, none, dependents g wrt⟩
  g.ids.reverse.foldlM (x.handOn I inputs) (x.seeded outputs)

section Whole

variable {g : Graph} {wrt : List ValueId}

/-- No constant depends on the chosen arguments. -/
theorem not_literal_of_depends
    (hLeaf : ∀ a ∈ wrt, g.get? a = some ⟨.leaf, g.shape a⟩) (w : ValueId)
    (hw : (dependents g wrt).contains w = true) : g.literal? w = none := by
  apply literal?_of_mem_dependents _ w (List.contains_iff_mem.mp hw)
  intro a ha
  rw [Graph.literal?, hLeaf a ha]
  rfl

/-- **A reverse differentiation follows its plan**, from the arrays that its seeds hold. -/
theorem follows_recordReverse (hg : g.WellFormed) (hDiv : ∀ y z, I.div y z = y / z)
    (hGraph : r.graph = g) (bound : List ValueId)
    (hLeaf : ∀ a ∈ wrt, g.get? a = some ⟨.leaf, g.shape a⟩) {outputs : List ValueId}
    (hOutputs : ∀ o ∈ outputs, o < g.size) :
    ∃ seeds, seeds.length = outputs.length ∧ ∀ arrays, HoldArrays inputs arrays g outputs seeds →
      Follows (recordReverse g bound wrt outputs false) r
        (plan I inputs g wrt (seedArrays arrays outputs seeds)) fun c ws r' =>
          r.Extends r' (seedArguments seeds) ∧ g.Seeds r'.graph outputs seeds ∧
            List.Forall₂ (IsCotangent I inputs g c r'.graph) wrt ws := by
  subst hGraph
  let x : Reverse := ⟨r.graph, none, dependents r.graph wrt⟩
  -- Without a unit nothing is said of the form of the graph, and no seed is a constant.
  have hUnderway : Underway I x r :=
    ⟨Graph.Extends.refl _, hg, hg, fun h => absurd h (by simp [x]),
      not_literal_of_depends hLeaf, fun u hu => absurd hu (by simp [x])⟩
  obtain ⟨seeds, hExtends, hSeeds, hHolds⟩ :=
    @ensures_seedInputs K _ I inputs x r rfl (Graph.Extends.refl _) outputs hOutputs
  refine ⟨seeds, hSeeds.length_eq, ?_⟩
  intro arrays hArrays
  have hSeeded : Ensures (x.seedOutputs outputs) r fun d r' =>
      r.Extends r' (seedArguments seeds) ∧ r.graph.Seeds r'.graph outputs seeds ∧
        Holds I inputs x (x.seeded (seedArrays arrays outputs seeds)) d r'.graph :=
    ⟨hExtends, hSeeds, hHolds arrays hArrays⟩
  unfold recordReverse
  have hUnit : Yields (pure none : Differentiating (Option ValueId)) r fun u r' =>
      u = none ∧ r' = r := yields_pure ⟨rfl, rfl⟩
  rw [if_neg Bool.false_ne_true]
  apply hUnit.bind_follows
  rintro unit r₁ ⟨rfl, rfl⟩
  apply (yields_lift hSeeded).bind_follows
  rintro d r₁ ⟨hExtends₁, hSeeds₁, hHolds₁⟩
  have hCarries : Carries I inputs x r₁ (x.seeded (seedArrays arrays outputs seeds)) d r₁ :=
    ⟨Recorder.Extends.refl r₁, hUnderway.extend hExtends₁, hHolds₁⟩
  apply (follows_wayBack hDiv bound wrt hCarries).imp
  rintro c ws r₂ ⟨hExtends₂, hAll⟩
  have hExtends := hExtends₁.trans hExtends₂
  rw [List.append_nil] at hExtends
  exact ⟨hExtends, hSeeds₁.extend hExtends₂.graph, hAll⟩

/-- **A gradient follows the plan of a reverse differentiation** whose seed is an array of ones. -/
theorem follows_recordGradient (hg : g.WellFormed) (hRecorded : g.Recorded)
    (hDiv : ∀ y z, I.div y z = y / z) (hOne : I.literal 1 = 1) (hGraph : r.graph = g)
    (bound : List ValueId) (hLeaf : ∀ a ∈ wrt, g.get? a = some ⟨.leaf, g.shape a⟩) {o : ValueId}
    (hScalar : g.shape o = []) :
    Follows (recordReverse g bound wrt [o] true) r (plan I inputs g wrt [(o, fun _ => 1)])
      fun c ws r' => r.Extends r' ∧ r'.graph.get? g.size = some ⟨.literal 1, []⟩ ∧
        List.Forall₂ (IsCotangent I inputs g c r'.graph) wrt ws := by
  subst hGraph
  unfold recordReverse
  rw [if_pos rfl]
  obtain ⟨hExtends, -, hGet⟩ := @ensures_literal r 1
  have hUnit : Yields (some <$> liftM (literal 1) : Differentiating (Option ValueId)) r
      fun u r₁ => u = some r.graph.size ∧ r.Extends r₁ ∧
        r₁.graph.get? r.graph.size = some ⟨.literal 1, []⟩ :=
    ⟨_, rfl, rfl, hExtends, hGet⟩
  apply hUnit.bind_follows
  rintro unit r₁ ⟨rfl, hExtends₁, hGet₁⟩
  let x : Reverse := ⟨r.graph, some r.graph.size, dependents r.graph wrt⟩
  -- The unit is the first value that is added; here the form of the graph is needed.
  have hUnderway : Underway I x r₁ :=
    ⟨hExtends₁.graph, hg, hExtends₁.wellFormed hg, fun _ => hRecorded,
      not_literal_of_depends hLeaf, fun u hu => Option.some.inj hu ▸ ⟨hGet₁, hOne⟩⟩
  have hSeeded : Ensures (x.seedOutputs [o]) r₁ fun d r₂ => r₁.Extends r₂ ∧
      Holds I inputs x (x.seeded [(o, fun _ => 1)]) d r₂.graph := by
    have hAppend := seeded_append x [] (o, fun _ => (1 : K))
    unfold seedOutputs
    rw [List.foldlM_cons]
    simp only [List.foldlM_nil, bind_pure]
    unfold seedOutput
    apply Ensures.bind (ensures_tag .cotangent o r.graph.size)
    rintro ⟨⟩ r₂ ⟨hExtends₂, -⟩
    have hGet₂ := hExtends₂.graph.get?_of_some hGet₁
    -- The output is a number, as the unit is, so the unit is an array of ones for it.
    have hFills : r₂.graph.Fills I inputs (r.graph.shape o) r.graph.size fun _ => 1 := by
      rw [hScalar]
      exact ⟨Graph.lt_size_of_get? hGet₂, Graph.shape_of_get? hGet₂,
        fun p _ => (Graph.entry_of_literal hGet₂ p).trans hOne⟩
    apply Ensures.imp (ensures_addSeed (holds_none I inputs x r₂.graph) hFills)
    rintro d r₃ ⟨hExtends₃, hHolds⟩
    refine ⟨hExtends₂.trans hExtends₃, ?_⟩
    rw [List.nil_append] at hAppend
    rw [hAppend]
    exact hHolds
  apply (yields_lift hSeeded).bind_follows
  rintro d r₂ ⟨hExtends₂, hHolds⟩
  have hCarries : Carries I inputs x r₂ (x.seeded [(o, fun _ => 1)]) d r₂ :=
    ⟨Recorder.Extends.refl r₂, hUnderway.extend hExtends₂, hHolds⟩
  apply (follows_wayBack hDiv bound wrt hCarries).imp
  rintro c ws r₃ ⟨hExtends₃, hAll⟩
  exact ⟨(hExtends₁.trans hExtends₂).trans hExtends₃,
    (hExtends₂.trans hExtends₃).graph.get?_of_some hGet₁, hAll⟩

end Whole

end Reverse

end ArrayEquations
