import ArrayEquations.Proofs.UnitSeed

/-!
# ArrayEquations — values apart from the unit seed

A gradient asks before each product with a cotangent whether a factor is an array of the
seed. No other product has such a factor: the values of the differentiated graph come
before the seed, and slopes are made by operations that do more than rearrange.

Whether a value is an array of the seed is asked of the graph at the time, and a product
may stretch its factors after that. So what is kept is a statement about all graphs that
extend the present one.

## Main definitions

* `Graph.Apart` — a value is not an array of the seed, in whatever is recorded later.
* `Recorder.Spares` — a recorder has recorded more, but no product with the seed.
* `Recording.Keeps`, `Differentiating.Keeps` — an action that records no product with the
  seed.

## Main results

* `Recording.keeps_elementwise` — a product of values apart from the seed.
* `Recording.keeps_push`, `Recording.keeps_stretch`, … — the other operations.
-/

namespace ArrayEquations

/-! ## Values apart from the seed -/

/-- The value exists and is not an array of the seed, in this graph or in one that extends it. -/
structure Graph.Apart (g : Graph) (unit v : ValueId) : Prop where
  lt : v < g.size
  not_arrayOf : ∀ g', g.Extends g' → g'.WellFormed → ¬ g'.ArrayOf unit v

namespace Graph

variable {g g' : Graph} {unit v : ValueId}

theorem Apart.extend (h : g.Apart unit v) (hExtends : g.Extends g') : g'.Apart unit v :=
  ⟨Nat.lt_of_lt_of_le h.lt hExtends.size_le,
    fun g'' hExtends' hg => h.not_arrayOf g'' (hExtends.trans hExtends') hg⟩

theorem ArrayOf.unit_le (hg : g.WellFormed) (h : g.ArrayOf unit v) : unit ≤ v := by
  induction h with
  | self => exact Nat.le_refl _
  | step hGet _ _ ih =>
    exact Nat.le_trans ih (Nat.le_of_lt (hg.before hGet _ List.mem_cons_self))

/-- What comes before the seed is apart from it. -/
theorem apart_of_lt (hv : v < g.size) (hUnit : v < unit) : g.Apart unit v :=
  ⟨hv, fun _ _ hg h => absurd (h.unit_le hg) (Nat.not_le.mpr hUnit)⟩

/-- What does more than rearrange is apart from the seed. -/
theorem apart_of_get? {value : Value} (hNe : v ≠ unit) (hGet : g.get? v = some value)
    (hContent : ∀ op operands, value.content = .op op operands → op.isRearrangement = false) :
    g.Apart unit v := by
  refine ⟨lt_size_of_get? hGet, ?_⟩
  intro g' hExtends _ h
  cases h with
  | self => exact hNe rfl
  | step hGet' hRearranges _ =>
    rw [hExtends.get?_of_some hGet] at hGet'
    obtain rfl := Option.some.inj hGet'
    rw [hContent _ _ rfl] at hRearranges
    exact absurd hRearranges (by simp)

/-- An array of a value that is apart from the seed is apart from it. -/
theorem Apart.of_operand {a : ValueId} {op : Operation} {s : Shape} (h : g.Apart unit a)
    (hNe : v ≠ unit) (hGet : g.get? v = some ⟨.op op [a], s⟩) : g.Apart unit v := by
  refine ⟨lt_size_of_get? hGet, ?_⟩
  intro g' hExtends hg hArray
  cases hArray with
  | self => exact hNe rfl
  | step hGet' _ hOperand =>
    rw [hExtends.get?_of_some hGet] at hGet'
    obtain ⟨⟨-, rfl, -⟩, -⟩ : (_ ∧ a = _ ∧ _) ∧ _ := by simpa using Option.some.inj hGet'
    exact h.not_arrayOf g' hExtends hg hOperand

/-- What does not count as the seed is apart from it. -/
theorem apart_of_comesFromUnit (hv : v < g.size)
    (h : Reverse.comesFromUnit g unit g.size v = false) : g.Apart unit v := by
  refine ⟨hv, ?_⟩
  intro g' hExtends hg hArray
  rw [Reverse.comesFromUnit_of_arrayOf hg hExtends hArray hv] at h
  exact absurd h (by simp)

end Graph

/-- The second recorder has recorded more than the first, but no product with the seed. -/
structure Recorder.Spares (unit : ValueId) (r r' : Recorder) : Prop where
  graph : r.graph.Extends r'.graph
  product : ∀ v operands s, r.graph.size ≤ v →
    r'.graph.get? v = some ⟨.op (.arith .mul) operands, s⟩ →
      ∀ w ∈ operands, r'.graph.Apart unit w

namespace Recorder.Spares

variable {unit : ValueId} {r r₁ r₂ : Recorder}

theorem refl (unit : ValueId) (r : Recorder) : r.Spares unit r := by
  refine ⟨Graph.Extends.refl _, ?_⟩
  intro v operands s hv hGet
  exact absurd (Graph.lt_size_of_get? hGet) (Nat.not_lt.mpr hv)

theorem trans (h₁ : r.Spares unit r₁) (h₂ : r₁.Spares unit r₂) : r.Spares unit r₂ := by
  refine ⟨h₁.graph.trans h₂.graph, ?_⟩
  intro v operands s hv hGet w hw
  by_cases hOld : v < r₁.graph.size
  · rw [h₂.graph.get?_eq v hOld] at hGet
    exact (h₁.product v operands s hv hGet w hw).extend h₂.graph
  · exact h₂.product v operands s (Nat.not_lt.mp hOld) hGet w hw

end Recorder.Spares

namespace Recording

variable {α β : Type} {unit : ValueId} {r r' : Recorder} {m : Recording α} {f : α → Recording β}
  {P : α → Recorder → Prop} {Q : β → Recorder → Prop} {a b : ValueId}

/-- The action records no product with the seed, if that was recorded before, and then something
holds. -/
def Keeps (unit : ValueId) (m : Recording α) (r : Recorder) (Q : α → Recorder → Prop) : Prop :=
  unit < r.graph.size → Ensures m r fun a r' => r.Spares unit r' ∧ Q a r'

/-- The result is a value. -/
def IsValue (v : ValueId) (r : Recorder) : Prop := v < r.graph.size

/-- The result is a value apart from the seed. -/
def IsApart (unit v : ValueId) (r : Recorder) : Prop := r.graph.Apart unit v

theorem IsValue.extend (h : IsValue a r) (hSpares : r.Spares unit r') : IsValue a r' :=
  Nat.lt_of_lt_of_le h hSpares.graph.size_le

theorem IsApart.extend (h : IsApart unit a r) (hSpares : r.Spares unit r') : IsApart unit a r' :=
  Graph.Apart.extend h hSpares.graph

theorem IsApart.isValue (h : IsApart unit a r) : IsValue a r := h.lt

theorem keeps_pure {a : α} (h : P a r) : Keeps unit (pure a) r P := fun _ => ⟨.refl unit r, h⟩

theorem Keeps.imp {Q : α → Recorder → Prop} (h : Keeps unit m r P)
    (hImp : ∀ a r', P a r' → Q a r') : Keeps unit m r Q :=
  fun hUnit => Ensures.imp (h hUnit) fun a r' h => h.imp_right (hImp a r')

/-- The seed may be supposed to be there. -/
theorem keeps_of_unit {Q : α → Recorder → Prop} (h : IsValue unit r → Keeps unit m r Q) :
    Keeps unit m r Q := fun hUnit => h hUnit hUnit

theorem Keeps.bind (h : Keeps unit m r P)
    (hNext : ∀ a r', r.Spares unit r' → P a r' → Keeps unit (f a) r' Q) :
    Keeps unit (m >>= f) r Q := by
  intro hUnit
  apply Ensures.bind (h hUnit)
  rintro a r₁ ⟨hSpares, hP⟩
  apply Ensures.imp (hNext a r₁ hSpares hP (Nat.lt_of_lt_of_le hUnit hSpares.graph.size_le))
  rintro b r₂ ⟨hSpares', hQ⟩
  exact ⟨hSpares.trans hSpares', hQ⟩

/-- Reading the recorder changes nothing. -/
theorem keeps_get_bind {f : Recorder → Recording β} (h : Keeps unit (f r) r Q) :
    Keeps unit (get >>= f) r Q := h

theorem keeps_shapeOf_bind {v : ValueId} {f : Shape → Recording β}
    (h : Keeps unit (f (r.graph.shape v)) r Q) : Keeps unit (shapeOf v >>= f) r Q := h

theorem keeps_literalOf?_bind {v : ValueId} {f : Option Float → Recording β}
    (h : Keeps unit (f (r.graph.literal? v)) r Q) : Keeps unit (literalOf? v >>= f) r Q := h

/-! ## Single values -/

/-- A value that is no product, or a product of values apart from the seed. -/
theorem keeps_add {value : Value} (hProduct : ∀ operands,
      value.content = .op (.arith .mul) operands → ∀ w ∈ operands, r.graph.Apart unit w) :
    Keeps unit (add value) r fun v r' =>
      v ≠ unit ∧ r'.graph.get? v = some value ∧ IsValue v r' := by
  intro hUnit
  have hExtends := Graph.Extends.push r.graph value
  have hNew := Graph.get?_push_size r.graph value
  refine ⟨⟨hExtends, ?_⟩, Nat.ne_of_gt hUnit, hNew, Graph.lt_size_of_get? hNew⟩
  intro v operands s hv hGet w hw
  rcases Graph.get?_push hGet with hOld | ⟨-, hEq⟩
  · exact absurd (Graph.lt_size_of_get? hOld) (Nat.not_lt.mpr hv)
  · exact (hProduct operands (by rw [← hEq]) w hw).extend hExtends

theorem keeps_literal (x : Float) : Keeps unit (literal x) r (IsApart unit) := by
  apply (keeps_add (by simp)).imp
  rintro v r' ⟨hNe, hGet, -⟩
  exact Graph.apart_of_get? hNe hGet (by simp)

theorem keeps_fail (e : RecordingError) : Keeps unit (fail e) r (IsApart unit) := by
  intro hUnit
  obtain ⟨hSpares, hApart⟩ := @keeps_literal unit
    ⟨r.graph, r.arguments, r.bindings, r.tags, r.error.or (some e)⟩ 0 hUnit
  exact ⟨⟨hSpares.graph, hSpares.product⟩, hApart⟩

/-- An operation that is no product, or a product of values apart from the seed. -/
theorem keeps_pushShaped {op : Operation} {operands : List ValueId} {s : Shape}
    (hProduct : op = .arith .mul → ∀ w ∈ operands, r.graph.Apart unit w) :
    Keeps unit (pushShaped op operands s) r fun v r' =>
      v ≠ unit ∧ r'.graph.get? v = some ⟨.op op operands, s⟩ ∧ IsValue v r' := by
  apply keeps_add
  intro operands' hContent
  obtain ⟨rfl, rfl⟩ : op = .arith .mul ∧ operands = operands' := by simpa using hContent
  exact hProduct rfl

theorem keeps_push {op : Operation} {operands : List ValueId} (hOp : op ≠ .arith .mul) :
    Keeps unit (push op operands) r fun v r' =>
      IsValue v r' ∧ (op.isRearrangement = false → IsApart unit v r') := by
  unfold push
  apply keeps_get_bind
  simp only
  cases op.resultShape (operands.map r.graph.shape) with
  | error e => exact (keeps_fail _).imp fun v r' h => ⟨h.isValue, fun _ => h⟩
  | ok s =>
    apply (keeps_pushShaped fun h => absurd h hOp).imp
    rintro v r' ⟨hNe, hGet, hValue⟩
    refine ⟨hValue, fun hOther => Graph.apart_of_get? hNe hGet ?_⟩
    intro op' operands' hContent
    obtain ⟨rfl, -⟩ : op = op' ∧ operands = operands' := by simpa using hContent
    exact hOther

/-- A stretched value is apart from the seed if the value is. -/
theorem keeps_stretch {s out : Shape} :
    Keeps unit (stretch a s out) r fun v r' =>
      (IsValue a r → IsValue v r') ∧ (IsApart unit a r → IsApart unit v r') := by
  have hStretch : stretch a s out r =
      if s = out || (r.graph.literal? a).isSome then (a, r)
      else pushShaped (.broadcast (trailingDims s.rank out.rank)) [a] out r := by
    show (if s = out || (r.graph.literal? a).isSome then pure a
      else pushShaped _ [a] out : Recording ValueId) r = _
    split <;> rfl
  unfold Keeps Ensures
  rw [hStretch]
  split
  · exact fun _ => ⟨.refl unit r, id, id⟩
  · intro hUnit
    obtain ⟨hSpares, hNe, hGet, hValue⟩ := @keeps_pushShaped unit r
      (.broadcast (trailingDims s.rank out.rank)) [a] out (fun h => absurd h (by simp)) hUnit
    exact ⟨hSpares, fun _ => hValue, fun hApart => (hApart.extend hSpares).of_operand hNe hGet⟩

theorem keeps_reshape (target : Shape) : Keeps unit (reshape a target) r IsValue := by
  unfold reshape
  apply keeps_shapeOf_bind
  cases (r.graph.shape a).checkReshape target with
  | error e => exact (keeps_fail _).imp fun v r' h => h.isValue
  | ok _ => exact (keeps_pushShaped fun h => absurd h (by simp)).imp fun v r' h => h.2.2

theorem keeps_broadcastTo (target : Shape) : Keeps unit (broadcastTo a target) r IsValue := by
  unfold broadcastTo
  apply keeps_shapeOf_bind
  split
  · exact (keeps_fail _).imp fun v r' h => h.isValue
  · simp only
    cases (r.graph.shape a).checkBroadcast
        (trailingDims (r.graph.shape a).rank target.rank) target with
    | error e => exact (keeps_fail _).imp fun v r' h => h.isValue
    | ok _ => exact (keeps_pushShaped fun h => absurd h (by simp)).imp fun v r' h => h.2.2

/-! ## Arithmetic -/

/-- An elementwise operation on values that are, for a product, apart from the seed. -/
theorem keeps_elementwise {op : Operation} (hOp : op.isRearrangement = false)
    (hProduct : op = .arith .mul → IsApart unit a r ∧ IsApart unit b r) :
    Keeps unit (elementwise op a b) r (IsApart unit) := by
  unfold elementwise
  apply keeps_shapeOf_bind
  apply keeps_shapeOf_bind
  cases (r.graph.shape a).broadcast (r.graph.shape b) with
  | error e => exact keeps_fail _
  | ok out =>
    apply Keeps.bind keeps_stretch
    rintro a' r₁ hSpares₁ ⟨-, ha'⟩
    apply Keeps.bind keeps_stretch
    rintro b' r₂ hSpares₂ ⟨-, hb'⟩
    -- A product asks that neither operand is made of the seed, and stretching keeps it so.
    have hOperands : op = .arith .mul → ∀ w ∈ [a', b'], r₂.graph.Apart unit w := by
      intro hMul w hw
      obtain ⟨ha, hb⟩ := hProduct hMul
      rcases List.mem_pair.mp hw with rfl | rfl
      · exact (ha' ha).extend hSpares₂
      · exact hb' (hb.extend hSpares₁)
    apply (keeps_pushShaped hOperands).imp
    rintro v r₃ ⟨hNe, hGet, -⟩
    apply Graph.apart_of_get? hNe hGet
    intro op' operands' hContent
    obtain ⟨rfl, -⟩ : op = op' ∧ [a', b'] = operands' := by simpa using hContent
    exact hOp

theorem keeps_arith {op : Arith} (hProduct : op = .mul → IsApart unit a r ∧ IsApart unit b r) :
    Keeps unit (arith op a b) r (IsApart unit) :=
  keeps_elementwise rfl fun h => hProduct (by simpa using h)

theorem keeps_arithRight (op : Arith) (x : Float) (ha : IsApart unit a r) :
    Keeps unit (arithRight op a x) r (IsApart unit) :=
  (keeps_literal x).bind fun _ _ hSpares hc => keeps_arith fun _ => ⟨ha.extend hSpares, hc⟩

theorem keeps_arithLeft (op : Arith) (x : Float) (hb : IsApart unit b r) :
    Keeps unit (arithLeft op x b) r (IsApart unit) :=
  (keeps_literal x).bind fun _ _ hSpares hc => keeps_arith fun _ => ⟨hc, hb.extend hSpares⟩

theorem keeps_positive : Keeps unit (positive a) r (IsApart unit) :=
  (keeps_literal 0).bind fun _ _ _ _ => keeps_elementwise rfl fun h => absurd h (by simp)

theorem keeps_powerSlope (ha : IsApart unit a r) (hb : IsApart unit b r) :
    Keeps unit (powerSlope a b) r (IsApart unit) := by
  unfold powerSlope
  apply keeps_literalOf?_bind
  cases r.graph.literal? b with
  | some c =>
    simp only
    split
    · exact keeps_arithLeft .mul c ha
    · apply Keeps.bind (keeps_arithRight .pow (c - 1) ha)
      intro power r₁ _ hPower
      exact keeps_arithLeft .mul c hPower
  | none =>
    simp only
    apply Keeps.bind (keeps_arithRight .sub 1 hb)
    intro exponent r₁ hSpares₁ _
    apply Keeps.bind (keeps_arith fun h => absurd h (by simp))
    intro power r₂ hSpares₂ hPower
    exact keeps_arith fun _ => ⟨(hb.extend hSpares₁).extend hSpares₂, hPower⟩

end Recording

/-! ## Actions that may find no rule -/

namespace Differentiating

open Recording

variable {α β : Type} {unit : ValueId} {r : Recorder} {m : Differentiating α}
  {f : α → Differentiating β} {P : α → Recorder → Prop} {Q : β → Recorder → Prop}

/-- The action records no product with the seed, and then something holds of its result if it
has one. -/
def Keeps (unit : ValueId) (m : Differentiating α) (r : Recorder) (Q : α → Recorder → Prop) :
    Prop :=
  Recording.Keeps unit m.run r fun result r' => ∀ a, result = .ok a → Q a r'

theorem Keeps.bind (h : Keeps unit m r P)
    (hNext : ∀ a r', r.Spares unit r' → P a r' → Keeps unit (f a) r' Q) :
    Keeps unit (m >>= f) r Q := by
  unfold Keeps
  rw [ExceptT.run_bind]
  apply Recording.Keeps.bind h
  rintro (e | a) r₁ hSpares hP
  · exact keeps_pure fun b hb => absurd hb (by simp)
  · exact hNext a r₁ hSpares (hP a rfl)

theorem keeps_pure {a : α} (h : P a r) : Keeps unit (pure a) r P :=
  Recording.keeps_pure fun _ hEq => Except.ok.inj hEq ▸ h

theorem keeps_throw (e : DerivativeError) : Keeps unit (throw e : Differentiating α) r P :=
  Recording.keeps_pure fun _ hEq => absurd hEq (by simp)

theorem keeps_lift {m : Recording α} (h : Recording.Keeps unit m r P) :
    Keeps unit (liftM m) r P := by
  intro hUnit
  obtain ⟨hSpares, hP⟩ := h hUnit
  exact ⟨hSpares, fun _ hEq => Except.ok.inj hEq ▸ hP⟩

theorem Keeps.foldlM {f : α → β → Differentiating α} {bs : List β} {a : α} (h : P a r)
    (hStep : ∀ b ∈ bs, ∀ a r, P a r → Keeps unit (f a b) r P) :
    Keeps unit (bs.foldlM f a) r P := by
  induction bs generalizing a r with
  | nil => exact keeps_pure h
  | cons b bs ih =>
    rw [List.foldlM_cons]
    apply (hStep b List.mem_cons_self a r h).bind
    intro a' r' _ hP
    exact ih hP fun c hc => hStep c (List.mem_cons_of_mem b hc)

end Differentiating

end ArrayEquations
