import ArrayEquations.Derivative.Reverse
import ArrayEquations.Proofs.Permutation
import ArrayEquations.Proofs.RecordedSlope

/-!
# ArrayEquations — products with the unit seed

A gradient does not record products with its seed. What it records in their place has the
same entries, but it may be smaller: a product with an array of ones is the other factor,
and that may be a constant. So a contribution has the shape of the result or, in a
gradient, that of a scalar.

## Main definitions

* `Reverse.Underway` — what holds while a reverse differentiation goes on.
* `Reverse.Contributes`, `Reverse.Multiplies` — contributions and what they are multiplied
  with.

## Main results

* `Reverse.entry_of_arrayOf` — an array of the seed holds ones.
* `Reverse.ensures_times_left`, `Reverse.ensures_times_right` — products.
-/

namespace ArrayEquations

/-- The operation only repeats or rearranges the entries of its operand. -/
def Operation.isRearrangement : Operation → Bool
  | .broadcast _ | .reshape | .cast _ | .transpose _ => true
  | _ => false

/-- The value is another one or comes from it by operations that only repeat or rearrange
entries. -/
inductive Graph.ArrayOf (g : Graph) (unit : ValueId) : ValueId → Prop
  | self : ArrayOf g unit unit
  | step {v operand : ValueId} {op : Operation} {operands : List ValueId} {s : Shape}
      (hGet : g.get? v = some ⟨.op op (operand :: operands), s⟩)
      (hRearranges : op.isRearrangement = true) (h : ArrayOf g unit operand) : ArrayOf g unit v

namespace Reverse

open Recording

variable {K : Type*} [Field K] {I : Interpretation K} {inputs : ValueId → Position → K}
  {x : Reverse} {r r' : Recorder} {out : Shape} {entries₁ entries₂ : Position → K}
  {a b ct : ValueId}

/-- What holds while a reverse differentiation goes on. A gradient has its seed, and is taken of
a graph in the form in which graphs are recorded. -/
structure Underway (I : Interpretation K) (x : Reverse) (r : Recorder) : Prop where
  graph : x.graph.Extends r.graph
  source : x.graph.WellFormed
  wellFormed : r.graph.WellFormed
  recorded : x.unit.isSome = true → x.graph.Recorded
  not_literal : ∀ w, x.depends.contains w = true → x.graph.literal? w = none
  seed : ∀ u, x.unit = some u → r.graph.get? u = some ⟨.literal 1, []⟩ ∧ I.literal 1 = 1

theorem Underway.extend {added : List Argument} (h : Underway I x r)
    (hExtends : r.Extends r' added) : Underway I x r' :=
  ⟨h.graph.trans hExtends.graph, h.source, hExtends.wellFormed h.wellFormed, h.recorded,
    h.not_literal, fun u hu => (h.seed u hu).imp_left hExtends.graph.get?_of_some⟩

/-! ## Arrays of the seed -/

private theorem comesFromUnit_zero {g : Graph} {unit v : ValueId} :
    comesFromUnit g unit 0 v = true ↔ v = unit := by
  rw [comesFromUnit]
  · simp
  · simp

private theorem comesFromUnit_succ {g : Graph} {unit v : ValueId} {fuel : Nat} :
    comesFromUnit g unit (fuel + 1) v = true ↔ v = unit ∨ ∃ op operand operands,
      g.op? v = some (op, operand :: operands) ∧ op.isRearrangement = true ∧
        comesFromUnit g unit fuel operand = true := by
  rw [comesFromUnit.eq_def, Bool.or_eq_true, beq_iff_eq]
  apply or_congr_right
  cases hOp : g.op? v with
  | none => simp
  | some made =>
    obtain ⟨op, operands⟩ := made
    cases operands with
    | nil => simp
    | cons operand operands => cases op <;> simp [Operation.isRearrangement]

/-- What comes from the seed is an array of it. -/
theorem arrayOf_of_comesFromUnit {g : Graph} {unit v : ValueId} {fuel : Nat}
    (h : comesFromUnit g unit fuel v = true) : g.ArrayOf unit v := by
  induction fuel generalizing v with
  | zero =>
    rw [comesFromUnit_zero.mp h]
    exact .self
  | succ fuel ih =>
    rcases comesFromUnit_succ.mp h with rfl | ⟨op, operand, operands, hOp, hRearranges, h⟩
    · exact .self
    · exact .step (Graph.op?_eq_some hOp) hRearranges (ih h)

/-- An array of the seed comes from it, also when it is asked before more is recorded. -/
theorem comesFromUnit_of_arrayOf {g g' : Graph} (hg : g'.WellFormed) (hExtends : g.Extends g')
    {unit v : ValueId} (h : g'.ArrayOf unit v) (hv : v < g.size) :
    comesFromUnit g unit g.size v = true := by
  -- The fuel need only bound the value, for every step leads to one before.
  suffices hFuel : ∀ fuel, v < fuel → comesFromUnit g unit fuel v = true from hFuel _ hv
  induction h with
  | self =>
    intro fuel hFuel
    obtain ⟨fuel, rfl⟩ := Nat.exists_eq_add_of_lt hFuel
    exact comesFromUnit_succ.mpr (Or.inl rfl)
  | step hGet hRearranges _ ih =>
    intro fuel hFuel
    obtain ⟨k, rfl⟩ := Nat.exists_eq_succ_of_ne_zero (Nat.ne_zero_of_lt hFuel)
    have hBefore := hg.before hGet _ List.mem_cons_self
    have hLt := Nat.lt_of_lt_of_le hBefore (Nat.lt_succ_iff.mp hFuel)
    rw [hExtends.get?_eq _ hv] at hGet
    exact comesFromUnit_succ.mpr (Or.inr ⟨_, _, _, Graph.op?_of_get? hGet, hRearranges,
      ih (Nat.lt_trans hBefore hv) k hLt⟩)

/-- **An array of the seed holds ones.** -/
theorem entry_of_arrayOf {g : Graph} (hg : g.WellFormed) {unit : ValueId}
    (hSeed : g.get? unit = some ⟨.literal 1, []⟩) (hOne : I.literal 1 = 1) {v : ValueId}
    (h : g.ArrayOf unit v) {p : Position} (hp : p ∈ (g.shape v).box) :
    g.entry I inputs v p = 1 := by
  induction h generalizing p with
  | self => rw [Graph.entry_of_literal hSeed, hOne]
  | step hGet hRearranges _ ih =>
    have hFits := hg.fits hGet
    rw [Graph.shape_of_get? hGet] at hp
    rw [Graph.entry_of_op hGet (hg.before hGet)]
    generalize hShapes : List.map g.shape _ = shapes at hFits
    -- A rearrangement reads each entry at some place of its operand, where it is one.
    cases hFits with
    | broadcast hStretches =>
      obtain ⟨w, hEq, rfl⟩ := eq_singleton_of_map hShapes
      obtain ⟨rfl, rfl⟩ := List.cons.inj hEq
      exact ih (Shape.project_mem_box hStretches hp)
    | transpose hLength hLt hNodup =>
      obtain ⟨w, hEq, rfl⟩ := eq_singleton_of_map hShapes
      obtain ⟨rfl, rfl⟩ := List.cons.inj hEq
      exact ih (unpermute_mem_box ⟨hLength ▸ hLt, hNodup⟩ hLength hp)
    | reshape hSize =>
      obtain ⟨w, hEq, rfl⟩ := eq_singleton_of_map hShapes
      obtain ⟨rfl, rfl⟩ := List.cons.inj hEq
      exact ih (Shape.reshaped_mem_box hSize hp)
    | cast =>
      obtain ⟨w, hEq, rfl⟩ := eq_singleton_of_map hShapes
      obtain ⟨rfl, rfl⟩ := List.cons.inj hEq
      exact ih hp
    | _ => exact absurd hRearranges (by simp [Operation.isRearrangement])

/-! ## Contributions and what they are multiplied with -/

/-- The value is a contribution with the entries given: it has the shape or, in a gradient, that
of a scalar. -/
structure Contributes (I : Interpretation K) (inputs : ValueId → Position → K) (x : Reverse)
    (g : Graph) (out : Shape) (v : ValueId) (entries : Position → K) : Prop where
  spreads : g.Spreads I inputs out v entries
  shape : g.shape v = out ∨ x.unit.isSome = true ∧ g.shape v = []

/-- The value is what a contribution may be multiplied with. Without a gradient it may have any
shape that stretches to the contribution's. -/
structure Multiplies (I : Interpretation K) (inputs : ValueId → Position → K) (x : Reverse)
    (g : Graph) (out : Shape) (v : ValueId) (entries : Position → K) : Prop where
  spreads : g.Spreads I inputs out v entries
  plain : x.unit.isSome = true → out.Plain (g.shape v)

theorem Contributes.congr {g : Graph} (h : Contributes I inputs x g out a entries₁)
    (hEq : ∀ p ∈ out.box, entries₁ p = entries₂ p) : Contributes I inputs x g out a entries₂ :=
  ⟨h.spreads.congr hEq, h.shape⟩

theorem Contributes.of_fills {g : Graph} (h : g.Fills I inputs out a entries₁) :
    Contributes I inputs x g out a entries₁ :=
  ⟨h.spreads, Or.inl h.shape⟩

theorem Multiplies.of_fills {g : Graph} (h : g.Fills I inputs out a entries₁) :
    Multiplies I inputs x g out a entries₁ :=
  ⟨h.spreads, fun _ => Or.inl h.shape⟩

theorem Contributes.extend {g g' : Graph} (h : Contributes I inputs x g out a entries₁)
    (hExtends : g.Extends g') : Contributes I inputs x g' out a entries₁ := by
  refine ⟨h.spreads.extend hExtends, ?_⟩
  rw [hExtends.shape_eq h.spreads.lt]
  exact h.shape

/-- The shape of a product, where the first factor is the contribution. -/
private theorem shape_of_broadcast {a b c : Shape}
    (ha : a = out ∨ x.unit.isSome = true ∧ a = []) (hb : x.unit.isSome = true → out.Plain b)
    (hBelow : b.Below out) (h : a.broadcast b = .ok c ∨ b.broadcast a = .ok c) :
    c = out ∨ x.unit.isSome = true ∧ c = [] := by
  rcases ha with rfl | ⟨hUnit, rfl⟩
  · left
    rcases h with h | h
    · exact Shape.eq_of_broadcast_below h hBelow
    · exact Shape.eq_of_below_broadcast h hBelow
  · have hc : c = b := by
      rcases h with h | h
      · exact Shape.eq_of_below_broadcast h (Shape.Below.nil _)
      · exact Shape.eq_of_broadcast_below h (Shape.Below.nil _)
    rw [hc]
    exact (hb hUnit).imp_right fun hNil => ⟨hUnit, hNil⟩

theorem ensures_arith_left (op : Arith) (ha : Contributes I inputs x r.graph out a entries₁)
    (hb : Multiplies I inputs x r.graph out b entries₂) :
    Ensures (arith op a b) r fun v r' => r.Extends r' ∧
      Contributes I inputs x r'.graph out v fun p => I.arith op (entries₁ p) (entries₂ p) := by
  apply (ensures_arith op ha.spreads hb.spreads).imp_extends
  rintro v r' - ⟨hSpreads, hShape⟩
  exact ⟨hSpreads, shape_of_broadcast ha.shape hb.plain hb.spreads.below (Or.inl hShape)⟩

theorem ensures_arith_right (op : Arith) (ha : Multiplies I inputs x r.graph out a entries₁)
    (hb : Contributes I inputs x r.graph out b entries₂) :
    Ensures (arith op a b) r fun v r' => r.Extends r' ∧
      Contributes I inputs x r'.graph out v fun p => I.arith op (entries₁ p) (entries₂ p) := by
  apply (ensures_arith op ha.spreads hb.spreads).imp_extends
  rintro v r' - ⟨hSpreads, hShape⟩
  exact ⟨hSpreads, shape_of_broadcast hb.shape ha.plain ha.spreads.below (Or.inr hShape)⟩

theorem ensures_neg_contributes (ha : Contributes I inputs x r.graph out a entries₁) :
    Ensures (neg a) r fun v r' => r.Extends r' ∧
      Contributes I inputs x r'.graph out v fun p => -entries₁ p := by
  apply (ensures_neg ha.spreads).imp_extends
  exact fun v r' _ hv => ⟨hv.1, hv.2 ▸ ha.shape⟩

/-! ## Products -/

private theorem ensures_isUnit_bind {β : Type} {v : ValueId} {f : Bool → Recording β}
    {Q : β → Recorder → Prop}
    (h : Ensures (f (x.unit.any fun unit => comesFromUnit r.graph unit r.graph.size v)) r Q) :
    Ensures (x.isUnit v >>= f) r Q := h

/-- What counts as the seed holds ones, and there is a seed. -/
private theorem one_of_isUnit (hx : Underway I x r) {v : ValueId}
    (hv : r.graph.Spreads I inputs out v entries₁)
    (h : x.unit.any (fun unit => comesFromUnit r.graph unit r.graph.size v) = true) :
    x.unit.isSome = true ∧ ∀ p ∈ out.box, entries₁ p = 1 := by
  obtain ⟨unit, hUnit, h⟩ := (Option.any_eq_true _ _).mp h
  obtain ⟨hSeed, hOne⟩ := hx.seed unit hUnit
  refine ⟨Option.isSome_of_eq_some hUnit, ?_⟩
  intro p hp
  rw [← hv.aligned p hp]
  exact entry_of_arrayOf hx.wellFormed hSeed hOne (arrayOf_of_comesFromUnit h)
    (Shape.align_mem_box hv.below hp)

/-- **A product with a contribution has the entries of the product, even if it is not
recorded.** -/
theorem ensures_times_left (hx : Underway I x r)
    (ha : Contributes I inputs x r.graph out a entries₁)
    (hb : Multiplies I inputs x r.graph out b entries₂) :
    Ensures (x.times a b) r fun v r' => r.Extends r' ∧
      Contributes I inputs x r'.graph out v fun p => entries₁ p * entries₂ p := by
  unfold times
  apply ensures_isUnit_bind
  split
  · rename_i hUnit
    -- The product is `b` alone, which has the shape of the result because a gradient is plain.
    obtain ⟨hGradient, hOne⟩ := one_of_isUnit hx ha.spreads hUnit
    refine ⟨Recorder.Extends.refl r, hb.spreads.congr ?_,
      (hb.plain hGradient).imp_right fun hNil => ⟨hGradient, hNil⟩⟩
    intro p hp
    rw [hOne p hp, one_mul]
  · apply ensures_isUnit_bind
    split
    · rename_i hUnit
      obtain ⟨-, hOne⟩ := one_of_isUnit hx hb.spreads hUnit
      refine ⟨Recorder.Extends.refl r, ha.congr ?_⟩
      intro p hp
      rw [hOne p hp, mul_one]
    · exact ensures_arith_left .mul ha hb

theorem ensures_times_right (hx : Underway I x r)
    (ha : Multiplies I inputs x r.graph out a entries₁)
    (hb : Contributes I inputs x r.graph out b entries₂) :
    Ensures (x.times a b) r fun v r' => r.Extends r' ∧
      Contributes I inputs x r'.graph out v fun p => entries₁ p * entries₂ p := by
  unfold times
  apply ensures_isUnit_bind
  split
  · rename_i hUnit
    obtain ⟨-, hOne⟩ := one_of_isUnit hx ha.spreads hUnit
    refine ⟨Recorder.Extends.refl r, hb.congr ?_⟩
    intro p hp
    rw [hOne p hp, one_mul]
  · apply ensures_isUnit_bind
    split
    · rename_i hUnit
      obtain ⟨hGradient, hOne⟩ := one_of_isUnit hx hb.spreads hUnit
      refine ⟨Recorder.Extends.refl r, ha.spreads.congr ?_,
        (ha.plain hGradient).imp_right fun hNil => ⟨hGradient, hNil⟩⟩
      intro p hp
      rw [hOne p hp, mul_one]
    · exact ensures_arith_right .mul ha hb

end Reverse

end ArrayEquations
