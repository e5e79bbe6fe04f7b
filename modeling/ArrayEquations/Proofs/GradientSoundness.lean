import ArrayEquations.Proofs.InheritedReverse
import ArrayEquations.Proofs.UnitProducts

/-!
# ArrayEquations — a gradient is a reverse derivative with the seed one

The gradient and the reverse derivative of a trace are different graphs, for the gradient
leaves out all products with its seed. Both follow one plan: the cotangents that are
carried back from an array of ones. So they exist together, and their outputs hold the
same entries.

## Main results

* `Trace.exists_extend_of_follows` — recordings of one plan become traces together.
* `Trace.grad_sound` — the gradient and the reverse derivative with the seed one.
-/

namespace ArrayEquations

universe u

namespace Reverse

open Recording Differentiating

variable {K : Type*} [Field K] {I : Interpretation K} {inputs : ValueId → Position → K}
  {g : Graph} {wrt : List ValueId}

/-- What a recording that goes on from a trace ends with: outputs of the derivative. -/
def Answers (I : Interpretation K) (inputs : ValueId → Position → K) (t : Trace)
    (wrt : List ValueId) (c : Cotangents K) (ws : List ValueId) (r : Recorder) : Prop :=
  (∃ added, t.recorder.Extends r added) ∧
    List.Forall₂ (IsCotangent I inputs t.graph c r.graph) wrt ws

/-- Outputs for one argument, of one plan, have the same entries. -/
theorem IsCotangent.entry_eq {c : Cotangents K} {g₁ g₂ : Graph} {a w₁ w₂ : ValueId}
    (h₁ : IsCotangent I inputs g c g₁ a w₁) (h₂ : IsCotangent I inputs g c g₂ a w₂)
    {p : Position} (hp : p ∈ (g.shape a).box) :
    g₁.entry I inputs w₁ p = g₂.entry I inputs w₂ p := by
  rcases h₁ with ⟨e₁, hc₁, hFills₁⟩ | ⟨hc₁, hZero₁⟩
  · rcases h₂ with ⟨e₂, hc₂, hFills₂⟩ | ⟨hc₂, -⟩
    · rw [hFills₁.entry p hp, hFills₂.entry p hp, Option.some.inj (hc₁.symm.trans hc₂)]
    · exact absurd (hc₁.symm.trans hc₂) (by simp)
  · rcases h₂ with ⟨e₂, hc₂, -⟩ | ⟨-, hZero₂⟩
    · exact absurd (hc₁.symm.trans hc₂) (by simp)
    · rw [Graph.entry_of_literal hZero₁, Graph.entry_of_literal hZero₂]

/-- Both have the shape of the argument, or both are the constant zero. -/
theorem IsCotangent.shape_or_zero {c : Cotangents K} {g₁ g₂ : Graph} {a w₁ w₂ : ValueId}
    (h₁ : IsCotangent I inputs g c g₁ a w₁) (h₂ : IsCotangent I inputs g c g₂ a w₂) :
    g₁.shape w₁ = g.shape a ∧ g₂.shape w₂ = g.shape a ∨
      g₁.literal? w₁ = some 0 ∧ g₂.literal? w₂ = some 0 := by
  rcases h₁ with ⟨e₁, hc₁, hFills₁⟩ | ⟨hc₁, hZero₁⟩
  · rcases h₂ with ⟨e₂, -, hFills₂⟩ | ⟨hc₂, -⟩
    · exact Or.inl ⟨hFills₁.shape, hFills₂.shape⟩
    · exact absurd (hc₁.symm.trans hc₂) (by simp)
  · rcases h₂ with ⟨e₂, hc₂, -⟩ | ⟨-, hZero₂⟩
    · exact absurd (hc₁.symm.trans hc₂) (by simp)
    · refine Or.inr ⟨?_, ?_⟩
      · rw [Graph.literal?, hZero₁]
        rfl
      · rw [Graph.literal?, hZero₂]
        rfl

private theorem of_forall₂_zip {c : Cotangents K} {g₁ g₂ : Graph} {ws₁ ws₂ : List ValueId}
    (h₁ : List.Forall₂ (IsCotangent I inputs g c g₁) wrt ws₁)
    (h₂ : List.Forall₂ (IsCotangent I inputs g c g₂) wrt ws₂) :
    ∀ x ∈ wrt.zip (ws₁.zip ws₂),
      IsCotangent I inputs g c g₁ x.1 x.2.1 ∧ IsCotangent I inputs g c g₂ x.1 x.2.2 := by
  induction h₁ generalizing ws₂ with
  | nil => simp
  | cons hOne₁ _ ih =>
    cases h₂ with
    | cons hOne₂ hRest₂ =>
      rw [List.zip_cons_cons, List.zip_cons_cons]
      exact List.forall_mem_cons.mpr ⟨⟨hOne₁, hOne₂⟩, ih hRest₂⟩

end Reverse

namespace Trace

open Reverse Recording Differentiating

variable {t : Trace} {positions : List Nat} {wrt : List ValueId}

/-- Recordings that follow one plan become traces together. -/
theorem exists_extend_of_follows {K : Type*} [Field K] {I : Interpretation K}
    {inputs : ValueId → Position → K} (h : t.WellFormed)
    {action₁ action₂ : Differentiating (List ValueId)}
    {plan : Except DerivativeError (Cotangents K)}
    (h₁ : Follows action₁ t.recorder plan (Answers I inputs t wrt))
    (h₂ : Follows action₂ t.recorder plan (Answers I inputs t wrt))
    (hOk : ∃ t', t.extend action₁ = .ok t') : ∃ t', t.extend action₂ = .ok t' := by
  obtain ⟨t₁, hExtend₁⟩ := hOk
  obtain ⟨r₁, hRun₁, -, -, hNonempty⟩ := run_of_extend h hExtend₁
  obtain ⟨c, hPlan, -, hAll₁⟩ := h₁.ok_of_run hRun₁
  obtain ⟨ws, r₂, hRun₂, ⟨added, hExtends⟩, hAll₂⟩ := (h₂.1 c hPlan).exists_run
  have hNonempty₂ : ws ≠ [] := by
    rintro rfl
    exact hNonempty (List.length_eq_zero_iff.mp (hAll₁.length_eq.symm.trans hAll₂.length_eq))
  exact ⟨_, extend_eq_ok h hRun₂ hExtends hNonempty₂ (IsCotangent.all_lt hAll₂)⟩

/-- A reverse differentiation of one number has one seed. If that holds the number one, the
differentiation follows the plan of the gradient. -/
theorem exists_follows_unitSeed {K : Type*} [Field K] {I : Interpretation K}
    (inputs : ValueId → Position → K) (h : t.WellFormed) (hDiv : ∀ y z, I.div y z = y / z)
    (hSelects : t.Selects wrt) {o : ValueId} (hOutput : t.outputs = [o])
    (hScalar : t.graph.shape o = []) :
    let action := recordReverse t.graph (t.bindings.map (·.value)) wrt [o] false
    ∃ seed, (∀ ws r, action.run t.recorder = (.ok ws, r) →
        r.arguments = t.arguments ++ seedArguments [seed]) ∧
      (inputs seed [] = 1 → Follows action t.recorder
        (plan I inputs t.graph wrt [(o, fun _ => 1)]) (Answers I inputs t wrt)) := by
  obtain ⟨seeds, hLength, hFollows⟩ := @follows_recordReverse K _ I inputs t.recorder t.graph wrt
    h.graph hDiv rfl (t.bindings.map (·.value)) (fun a ha => hSelects.leaf h ha) [o]
    (hOutput ▸ h.output_lt)
  obtain ⟨seed, rfl⟩ := List.length_eq_one_iff.mp hLength
  refine ⟨seed, ?_, ?_⟩
  · intro ws r hRun
    obtain ⟨-, -, hExtends, -⟩ := (hFollows inputs fun _ _ _ _ => rfl).ok_of_run hRun
    exact hExtends.arguments
  · intro hOne
    -- The output is a scalar, so one is all that its seed has to hold.
    have hArrays : HoldArrays inputs (fun _ _ => 1) t.graph [o] [seed] := by
      intro y hy p hp
      obtain rfl : y = (o, seed) := by simpa using hy
      rw [hScalar] at hp
      obtain rfl : p = [] := by simpa using hp
      exact hOne
    apply (hFollows (fun _ _ => 1) hArrays).imp
    rintro c ws r ⟨hExtends, -, hAll⟩
    exact ⟨⟨_, hExtends⟩, hAll⟩

/-- The gradient of one number follows its plan. -/
theorem follows_gradient {K : Type*} [Field K] {I : Interpretation K}
    (inputs : ValueId → Position → K) (h : t.WellFormed) (hRecorded : t.graph.Recorded)
    (hDiv : ∀ y z, I.div y z = y / z) (hOne : I.literal 1 = 1) (hSelects : t.Selects wrt)
    {o : ValueId} (hScalar : t.graph.shape o = []) :
    Follows (recordReverse t.graph (t.bindings.map (·.value)) wrt [o] true) t.recorder
      (plan I inputs t.graph wrt [(o, fun _ => 1)]) (Answers I inputs t wrt) := by
  apply (follows_recordGradient h.graph hRecorded hDiv hOne rfl _
    (fun a ha => hSelects.leaf h ha) hScalar).imp
  rintro c ws r ⟨hExtends, -, hAll⟩
  exact ⟨⟨_, hExtends⟩, hAll⟩

/-- The outputs of the gradient, and those of a reverse differentiation whose seed holds the
number one, are of one plan. -/
theorem exists_cotangents {K : Type*} [Field K] {I : Interpretation K}
    (inputs : ValueId → Position → K) (h : t.WellFormed) (hRecorded : t.graph.Recorded)
    (hDiv : ∀ y z, I.div y z = y / z) (hLiteral : I.literal 1 = 1) (hSelects : t.Selects wrt)
    {o : ValueId} (hOutput : t.outputs = [o]) (hScalar : t.graph.shape o = [])
    {ws₁ ws₂ : List ValueId} {r₁ r₂ : Recorder}
    (hRun₁ : (recordReverse t.graph (t.bindings.map (·.value)) wrt [o] true).run t.recorder =
      (.ok ws₁, r₁))
    (hRun₂ : (recordReverse t.graph (t.bindings.map (·.value)) wrt [o] false).run t.recorder =
      (.ok ws₂, r₂)) {seed : ValueId}
    (hSeed : r₂.arguments = t.arguments ++ seedArguments [seed]) (hOne : inputs seed [] = 1) :
    ∃ c, List.Forall₂ (IsCotangent I inputs t.graph c r₁.graph) wrt ws₁ ∧
      List.Forall₂ (IsCotangent I inputs t.graph c r₂.graph) wrt ws₂ := by
  obtain ⟨seed', hSeed', hReverse⟩ :=
    exists_follows_unitSeed (I := I) inputs h hDiv hSelects hOutput hScalar
  obtain rfl : seed = seed' := by
    have hEq := hSeed.symm.trans (hSeed' _ _ hRun₂)
    simpa using seedArguments_injective (List.append_cancel_left hEq)
  -- Both runs follow the same plan, whose cotangents are unique.
  obtain ⟨c, hPlan, -, hAll₁⟩ :=
    (follows_gradient inputs h hRecorded hDiv hLiteral hSelects hScalar).ok_of_run hRun₁
  obtain ⟨c', hPlan', -, hAll₂⟩ := (hReverse hOne).ok_of_run hRun₂
  obtain rfl := Except.ok.inj (hPlan.symm.trans hPlan')
  exact ⟨c, hAll₁, hAll₂⟩

/-- A reverse differentiation of one number, or its gradient, counts every entry exactly. -/
theorem counted_recordReverse (h : t.WellFormed) (hRecorded : t.graph.Recorded)
    (hCounts : ∀ v, (t.graph.shape v).Countable) (hSelects : t.Selects wrt) {o : ValueId}
    (hOutput : t.outputs = [o]) (hScalar : t.graph.shape o = []) {gradient : Bool}
    {ws : List ValueId} {r : Recorder}
    (hRun : (recordReverse t.graph (t.bindings.map (·.value)) wrt [o] gradient).run t.recorder =
      (.ok ws, r)) (v : ValueId) :
    (r.graph.shape v).count? = some (r.graph.shape v).size := by
  have hHandsDown : HandsDown (fun g => ∀ v, 0 ≤ v → (g.shape v).Countable)
      (recordReverse t.graph (t.bindings.map (·.value)) wrt [o] gradient) t.recorder :=
    handsDown_recordReverse (Graph.inherited_countable 0) hCounts h.graph rfl
      (fun hNot => hNot.elim) _ (fun a ha => hSelects.leaf h ha) (hOutput ▸ h.output_lt)
      fun _ => ⟨hRecorded, by simp [hScalar]⟩
  obtain ⟨hCountable, -⟩ := hHandsDown fun v _ => hCounts v
  rw [hRun] at hCountable
  exact (hCountable v (Nat.zero_le v)).count?_eq

/-- Of one number there is a gradient exactly if there is a reverse derivative. -/
theorem exists_grad_iff_exists_vjp (h : t.WellFormed) (hRecorded : t.graph.Recorded) {o : ValueId}
    (hOutput : t.outputs = [o]) (hScalar : t.graph.shape o = []) (positions : List Nat) :
    (∃ t', t.differentiate .grad positions = .ok t') ↔
      ∃ t', t.differentiate .vjp positions = .ok t' := by
  -- Whether they exist does not depend on the field, nor on what the inputs hold.
  have hTogether : ∀ wrt, selectArguments t positions = .ok wrt →
      ((∃ t', t.differentiate .grad positions = .ok t') ↔
        ∃ t', t.differentiate .vjp positions = .ok t') := by
    intro wrt hSelect
    have hSelects := selects_of_selectArguments h hSelect
    obtain ⟨seed, -, hReverse⟩ := exists_follows_unitSeed (I := plainReading) (fun _ _ => 1) h
      (fun _ _ => rfl) hSelects hOutput hScalar
    have hGradient := follows_gradient (I := plainReading) (fun _ _ => 1) h hRecorded
      (fun _ _ => rfl) rfl hSelects hScalar
    rw [differentiate_grad hSelect (hasScalarOutput_of_eq hOutput hScalar),
      differentiate_vjp hSelect, hOutput]
    exact ⟨exists_extend_of_follows h hGradient (hReverse rfl),
      exists_extend_of_follows h (hReverse rfl) hGradient⟩
  constructor
  · rintro ⟨t', hGrad⟩
    obtain ⟨wrt, hSelect⟩ := exists_selectArguments_of_differentiate hGrad
    exact (hTogether wrt hSelect).mp ⟨t', hGrad⟩
  · rintro ⟨t', hVjp⟩
    obtain ⟨wrt, hSelect⟩ := exists_selectArguments_of_differentiate hVjp
    exact (hTogether wrt hSelect).mpr ⟨t', hVjp⟩

/-- **A gradient is the reverse derivative with the seed one.** For a trace in the form in which
traces are recorded whose only output is a number, and whose numbers of entries fit a word, the two
exist together, whatever the positions. Their outputs, one for each chosen argument, have the
argument's shape or are both the constant zero, and with exact arithmetic they hold the same entries
when the seed of the reverse derivative is one. The gradient's seed is the first value that it adds,
and no product that it adds has the seed or an array of it as a factor. In both of them all entries
are counted exactly. -/
theorem grad_sound (h : t.WellFormed) (hRecorded : t.graph.Recorded)
    (hCounts : ∀ v, (t.graph.shape v).Countable) {o : ValueId} (hOutput : t.outputs = [o])
    (hScalar : t.graph.shape o = []) (positions : List Nat) :
    ((∃ t', t.differentiate .grad positions = .ok t') ↔
      ∃ t', t.differentiate .vjp positions = .ok t') ∧
    ∀ gradient reverse, t.differentiate .grad positions = .ok gradient →
      t.differentiate .vjp positions = .ok reverse →
      ∃ wrt seed, selectArguments t positions = .ok wrt ∧
        gradient.arguments = t.arguments ∧
        reverse.arguments = t.arguments ++ seedArguments [seed] ∧
        gradient.outputs.length = wrt.length ∧ reverse.outputs.length = wrt.length ∧
        (∀ x ∈ wrt.zip (gradient.outputs.zip reverse.outputs),
          gradient.graph.shape x.2.1 = t.graph.shape x.1 ∧
              reverse.graph.shape x.2.2 = t.graph.shape x.1 ∨
            gradient.graph.literal? x.2.1 = some 0 ∧ reverse.graph.literal? x.2.2 = some 0) ∧
        (∀ (K : Type u) [Field K] (I : Interpretation K) (inputs : ValueId → Position → K),
          I.Exact → inputs seed [] = 1 →
          ∀ x ∈ wrt.zip (gradient.outputs.zip reverse.outputs), ∀ p ∈ (t.graph.shape x.1).box,
            gradient.graph.entry I inputs x.2.1 p = reverse.graph.entry I inputs x.2.2 p) ∧
        gradient.graph.get? t.graph.size = some ⟨.literal 1, []⟩ ∧
        (∀ v operands s, t.graph.size ≤ v →
          gradient.graph.get? v = some ⟨.op (.arith .mul) operands, s⟩ →
          ∀ w ∈ operands, ¬ gradient.graph.ArrayOf t.graph.size w) ∧
        ∀ v, (gradient.graph.shape v).count? = some (gradient.graph.shape v).size ∧
          (reverse.graph.shape v).count? = some (reverse.graph.shape v).size := by
  refine ⟨exists_grad_iff_exists_vjp h hRecorded hOutput hScalar positions, ?_⟩
  intro gradient reverse hGrad hVjp
  obtain ⟨wrt, hSelect⟩ := exists_selectArguments_of_differentiate hGrad
  have hSelects := selects_of_selectArguments h hSelect
  rw [differentiate_grad hSelect (hasScalarOutput_of_eq hOutput hScalar), hOutput] at hGrad
  rw [differentiate_vjp hSelect, hOutput] at hVjp
  obtain ⟨r₁, hRun₁, hGraph₁, hArguments₁, -⟩ := run_of_extend h hGrad
  obtain ⟨r₂, hRun₂, hGraph₂, hArguments₂, -⟩ := run_of_extend h hVjp
  obtain ⟨seed, hSeed, -⟩ := exists_follows_unitSeed (I := plainReading) (fun _ _ => 1) h
    (fun _ _ => rfl) hSelects hOutput hScalar
  have hSeed := hSeed _ _ hRun₂
  obtain ⟨-, -, hExtends₁, hUnit, -⟩ := (@follows_recordGradient ℚ _ plainReading
    (fun _ _ => 1) t.recorder t.graph wrt h.graph hRecorded (fun _ _ => rfl) rfl rfl _
    (fun a ha => hSelects.leaf h ha) o hScalar).ok_of_run hRun₁
  -- Shapes do not depend on the field either, so any of them will do.
  obtain ⟨c, hAll₁, hAll₂⟩ := exists_cotangents (fun _ _ => 1) h hRecorded
    (I := plainReading) (fun _ _ => rfl) rfl hSelects hOutput hScalar hRun₁ hRun₂ hSeed rfl
  refine ⟨wrt, seed, hSelect, ?_, hArguments₂.trans hSeed, hAll₁.length_eq.symm,
    hAll₂.length_eq.symm, ?_, ?_, hGraph₁ ▸ hUnit, ?_, ?_⟩
  · rw [hArguments₁, hExtends₁.arguments, List.append_nil]
    rfl
  · intro x hx
    obtain ⟨hOne₁, hOne₂⟩ := of_forall₂_zip hAll₁ hAll₂ x hx
    rw [hGraph₁, hGraph₂]
    exact hOne₁.shape_or_zero hOne₂
  · intro K _ I inputs hI hOne x hx p hp
    obtain ⟨c, hAll₁, hAll₂⟩ := exists_cotangents inputs h hRecorded hI.div_eq
      (hI.literal_one 1 (by decide)) hSelects hOutput hScalar hRun₁ hRun₂ hSeed hOne
    obtain ⟨hOne₁, hOne₂⟩ := of_forall₂_zip hAll₁ hAll₂ x hx
    rw [hGraph₁, hGraph₂]
    exact hOne₁.entry_eq hOne₂ hp
  · intro v operands s hv hGet w hw hArray
    have hSpared := ensures_recordGradient (r := t.recorder) h.graph rfl
      (t.bindings.map (·.value)) wrt [o]
    unfold Ensures at hSpared
    rw [hRun₁] at hSpared
    rw [hGraph₁] at hGet hArray
    exact (hSpared v operands s hv hGet w hw).not_arrayOf r₁.graph (Graph.Extends.refl _)
      (hExtends₁.wellFormed h.graph) hArray
  · intro v
    rw [hGraph₁, hGraph₂]
    exact ⟨counted_recordReverse h hRecorded hCounts hSelects hOutput hScalar hRun₁ v,
      counted_recordReverse h hRecorded hCounts hSelects hOutput hScalar hRun₂ v⟩

/-- The gradient of the sum of two cubes has the entries of the reverse derivative. -/
theorem grad_sound_sumOfCubes :
    ∃ gradient reverse seed w₁ w₂, sumOfCubes.differentiate .grad [0] = .ok gradient ∧
      sumOfCubes.differentiate .vjp [0] = .ok reverse ∧
      reverse.arguments = [⟨0, some "x", false⟩, ⟨seed, none, true⟩] ∧
      gradient.outputs = [w₁] ∧ reverse.outputs = [w₂] ∧
      ∀ inputs : ValueId → Position → ℚ, inputs seed [] = 1 → ∀ p ∈ Shape.box [2],
        gradient.graph.entry smallArithmetic inputs w₁ p =
          reverse.graph.entry smallArithmetic inputs w₂ p := by
  -- That there is a reverse derivative is decided; the gradient then exists with it.
  have hReverse : ∃ t', sumOfCubes.differentiate .vjp [0] = .ok t' := by
    have hOk : (sumOfCubes.differentiate .vjp [0]).toBool = true := by decide +kernel
    cases hVjp : sumOfCubes.differentiate .vjp [0] with
    | error e => exact absurd (hVjp ▸ hOk) (by simp [Except.toBool])
    | ok t' => exact ⟨t', rfl⟩
  have hCounts : ∀ v, (sumOfCubes.graph.shape v).Countable :=
    Graph.countable_of_lt_size (by decide +kernel)
  obtain ⟨hTogether, hSound⟩ := grad_sound.{0} (Trace.wellFormed_of_ofDraft sumOfCubes_ofDraft)
    sumOfCubes_recorded hCounts (o := 3) rfl rfl [0]
  obtain ⟨reverse, hVjp⟩ := hReverse
  obtain ⟨gradient, hGrad⟩ := hTogether.mpr ⟨reverse, hVjp⟩
  obtain ⟨wrt, seed, hSelect, -, hArguments, hLength₁, hLength₂, -, hEntries, -⟩ :=
    hSound gradient reverse hGrad hVjp
  obtain rfl : wrt = [0] := by
    have hZero : selectArguments sumOfCubes [0] = .ok [0] := by decide
    exact Except.ok.inj (hSelect.symm.trans hZero)
  obtain ⟨w₁, hOutputs₁⟩ := List.length_eq_one_iff.mp hLength₁
  obtain ⟨w₂, hOutputs₂⟩ := List.length_eq_one_iff.mp hLength₂
  refine ⟨gradient, reverse, seed, w₁, w₂, hGrad, hVjp, hArguments, hOutputs₁, hOutputs₂, ?_⟩
  intro inputs hOne p hp
  rw [hOutputs₁, hOutputs₂] at hEntries
  exact hEntries ℚ smallArithmetic inputs smallArithmetic_exact hOne (0, w₁, w₂) (by simp) p hp

end Trace

end ArrayEquations
