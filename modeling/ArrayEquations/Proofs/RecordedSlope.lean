import ArrayEquations.Proofs.Differential
import ArrayEquations.Proofs.Recording

/-!
# ArrayEquations — the recorded slope of a power

Both directions of differentiation record the slope of a power in the same way. What is
recorded depends on whether the exponent is a constant.

## Main results

* `Recording.ensures_powerSlope` — the recorded slope is `Interpretation.powerSlope`.
-/

namespace ArrayEquations

/-- The shape is `out` or that of a scalar. -/
def Shape.Plain (out s : Shape) : Prop := s = out ∨ s = []

/-- Plain operands have a plain common shape. -/
theorem Shape.Plain.broadcast {out a b c : Shape} (ha : out.Plain a) (hb : out.Plain b)
    (h : a.broadcast b = .ok c) : out.Plain c := by
  rcases ha with rfl | rfl
  · rcases hb with rfl | rfl
    · exact Or.inl (eq_of_broadcast_below h (Below.refl _))
    · exact Or.inl (eq_of_broadcast_below h (Below.nil _))
  · rw [eq_of_below_broadcast h (Below.nil _)]
    exact hb

namespace Recording

variable {K : Type*} [Field K] {I : Interpretation K} {inputs : ValueId → Position → K}
  {r : Recorder} {out : Shape} {entries₁ entries₂ : Position → K} {a b : ValueId}

theorem ensures_powerSlope (ha : r.graph.Spreads I inputs out a entries₁)
    (hb : r.graph.Spreads I inputs out b entries₂) :
    Ensures (powerSlope a b) r fun v r' => r.Extends r' ∧
      r'.graph.Spreads I inputs out v
        (fun p => I.powerSlope (r.graph.literal? b) (entries₁ p) (entries₂ p)) ∧
      (out.Plain (r.graph.shape a) → out.Plain (r.graph.shape b) →
        out.Plain (r'.graph.shape v)) := by
  unfold powerSlope
  apply ensures_literalOf?_bind
  cases hLiteral : r.graph.literal? b with
  | some c =>
    simp only
    split
    · -- The exponent two needs no power.
      rename_i hOne
      apply (ensures_arithLeft .mul c ha).imp_extends
      rintro v r' - ⟨hSpreads, hShape⟩
      refine ⟨?_, fun hPlain _ => hShape ▸ hPlain⟩
      simp only [Interpretation.powerSlope, if_pos hOne]
      exact hSpreads
    · rename_i hOne
      apply (ensures_arithRight .pow (c - 1) ha).bind_extends
      rintro power r₁ - ⟨hPower, hPowerShape⟩
      apply (ensures_arithLeft .mul c hPower).imp_extends
      rintro v r₂ - ⟨hSpreads, hShape⟩
      refine ⟨?_, fun hPlain _ => hShape ▸ hPowerShape ▸ hPlain⟩
      simp only [Interpretation.powerSlope, if_neg hOne]
      exact hSpreads
  | none =>
    simp only
    -- An exponent that is computed may stretch the power, and the slope with it.
    apply (ensures_arithRight .sub 1 hb).bind_extends
    rintro exponent r₁ hExtends₁ ⟨hExponent, hExponentShape⟩
    apply (ensures_arith .pow (ha.extend hExtends₁.graph) hExponent).bind_extends
    rintro power r₂ hExtends₂ ⟨hPower, hPowerShape⟩
    have hExtends := hExtends₁.trans hExtends₂
    apply (ensures_arith .mul (hb.extend hExtends.graph) hPower).imp_extends
    rintro v r₃ - ⟨hSpreads, hShape⟩
    refine ⟨hSpreads, ?_⟩
    intro hPlainA hPlainB
    rw [hExtends₁.graph.shape_eq ha.lt, hExponentShape] at hPowerShape
    rw [hExtends.graph.shape_eq hb.lt] at hShape
    exact hPlainB.broadcast (hPlainA.broadcast hPlainB hPowerShape) hShape

end Recording

end ArrayEquations
