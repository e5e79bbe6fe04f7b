import ArrayEquations.Proofs.ShapeRules

/-!
# ArrayEquations — common shapes

Shapes are ordered by broadcasting: one comes before another if an array of the first shape
broadcasts to the second with the last axes aligned. In this order the common shape of two shapes,
which is computed extent by extent, is the least one that comes after both, and they have a common
shape whenever any shape comes after both. The order tells outcomes apart, a missing common shape
included, so the laws of broadcasting are those of a least upper bound.

## Main definitions

* `Shape.BroadcastsTo` — the check of an explicit broadcast accepts the trailing axes.
* `Shape.Bounds` — a shape comes after the outcome of a broadcast.

## Main results

* `Shape.bounds_broadcast` — the shapes after a common shape are those after both operands.
* `Shape.toOption_eq_of_bounds` — outcomes with the same shapes after them agree.
* `Shape.broadcast_least` — common shapes are least, and what follows for broadcasting.
-/

namespace ArrayEquations

namespace Shape

/-! ## The order -/

/-- The shape has no more axes than the other one, and an explicit broadcast along the trailing
axes is accepted. -/
def BroadcastsTo (s out : Shape) : Prop :=
  s.rank ≤ out.rank ∧ s.checkBroadcast (trailingDims s.rank out.rank) out = .ok ()

instance (s out : Shape) : Decidable (s.BroadcastsTo out) :=
  inferInstanceAs (Decidable (_ ∧ _))

/-- The check of an explicit broadcast finds out whether a shape stretches. -/
theorem broadcastsTo_iff_below {s out : Shape} : s.BroadcastsTo out ↔ s.Below out := by
  constructor
  · rintro ⟨hRank, hCheck⟩
    have hStretches := checkBroadcast_eq_ok.mp hCheck
    refine ⟨hRank, ?_⟩
    intro k hk
    -- trailing axis number `k` is as far from the end in the target as in the operand
    rw [← getD_trailingDims hk]
    exact hStretches.extent k hk
  · intro h
    exact ⟨h.rank_le, checkBroadcast_eq_ok.mpr h.stretches⟩

example : BroadcastsTo [3, 1] [2, 3, 4] ∧ ¬ BroadcastsTo [3, 1] [2, 4, 1] := by decide

/-- Shapes that stretch to each other are equal. -/
theorem Below.antisymm {s t : Shape} (h : s.Below t) (h' : t.Below s) : s = t :=
  -- Their common shape is either of them.
  Except.ok.inj ((broadcast_of_below_right h').symm.trans (broadcast_of_below_left h))

/-! ## Least shapes -/

/-- The outcome of a broadcast is a shape that stretches to the one given. -/
def Bounds (outcome : Except ShapeError Shape) (out : Shape) : Prop :=
  ∃ c, outcome = .ok c ∧ c.Below out

/-- **What comes after a common shape is what comes after both operands.** -/
theorem bounds_broadcast {a b out : Shape} :
    Bounds (a.broadcast b) out ↔ a.Below out ∧ b.Below out := by
  constructor
  · rintro ⟨c, hCommon, hBelow⟩
    obtain ⟨ha, hb⟩ := below_of_broadcast hCommon
    exact ⟨ha.trans hBelow, hb.trans hBelow⟩
  · rintro ⟨ha, hb⟩
    exact exists_broadcast ha hb

/-- The same for a chain of broadcasts, of which each may fail. -/
theorem bounds_bind {m : Except ShapeError Shape} {f : Shape → Except ShapeError Shape}
    {b out : Shape} (hf : ∀ c, Bounds (f c) out ↔ c.Below out ∧ b.Below out) :
    Bounds (m >>= f) out ↔ Bounds m out ∧ b.Below out := by
  cases m with
  | error e =>
    -- There is no shape after a failure.
    constructor
    · rintro ⟨c, hc, -⟩
      exact absurd hc (by simp [bind, Except.bind])
    · rintro ⟨⟨c, hc, -⟩, -⟩
      exact absurd hc (by simp)
  | ok c =>
    have hOk : Bounds (.ok c) out ↔ c.Below out := by simp [Bounds]
    rw [hOk]
    exact hf c

/-- Outcomes with the same shapes after them are the same shape, or both are failures. -/
theorem toOption_eq_of_bounds {m m' : Except ShapeError Shape}
    (h : ∀ out, Bounds m out ↔ Bounds m' out) : m.toOption = m'.toOption := by
  cases m with
  | error e =>
    cases m' with
    | error e' => rfl
    | ok c' =>
      obtain ⟨c, hc, -⟩ := (h c').mpr ⟨c', rfl, Below.refl c'⟩
      exact absurd hc (by simp)
  | ok c =>
    -- Each of the two shapes comes after the other one.
    obtain ⟨c', rfl, hBelow⟩ := (h c).mp ⟨c, rfl, Below.refl c⟩
    obtain ⟨d, hd, hBelow'⟩ := (h c').mpr ⟨c', rfl, Below.refl c'⟩
    obtain rfl := Except.ok.inj hd
    rw [hBelow'.antisymm hBelow]

/-! ## The laws of broadcasting -/

theorem broadcast_comm (a b : Shape) : (a.broadcast b).toOption = (b.broadcast a).toOption := by
  apply toOption_eq_of_bounds
  intro out
  rw [bounds_broadcast, bounds_broadcast, and_comm]

theorem broadcast_self (a : Shape) : a.broadcast a = .ok a := broadcast_of_below_left (.refl a)

theorem broadcast_scalar (a : Shape) : a.broadcast [] = .ok a := broadcast_of_below_right (.nil a)

theorem scalar_broadcast (a : Shape) : Shape.broadcast [] a = .ok a :=
  broadcast_of_below_left (.nil a)

/-- Broadcasting three shapes from the left and from the right fails alike or gives one shape. -/
theorem broadcast_assoc (a b c : Shape) :
    (a.broadcast b >>= fun d => d.broadcast c).toOption =
      (b.broadcast c >>= fun d => a.broadcast d).toOption := by
  apply toOption_eq_of_bounds
  intro out
  have hLeft : Bounds (a.broadcast b >>= fun d => d.broadcast c) out ↔
      (a.Below out ∧ b.Below out) ∧ c.Below out := by
    rw [bounds_bind fun d => bounds_broadcast, bounds_broadcast]
  have hRight : Bounds (b.broadcast c >>= fun d => a.broadcast d) out ↔
      (b.Below out ∧ c.Below out) ∧ a.Below out := by
    rw [bounds_bind fun d => by rw [bounds_broadcast, and_comm], bounds_broadcast]
  rw [hLeft, hRight]
  tauto

/-- **The common shape is the least shape to which both operands broadcast**, and there is one if
there is any such shape. So broadcasting does not depend on the order of its operands, or on how
three of them are grouped, failures included; a shape with itself or with the shape of a scalar
gives the shape. -/
theorem broadcast_least (a b : Shape) :
    ((∃ c, a.broadcast b = .ok c) ↔ ∃ out, a.BroadcastsTo out ∧ b.BroadcastsTo out) ∧
      (∀ c, a.broadcast b = .ok c →
        ∀ out, c.BroadcastsTo out ↔ a.BroadcastsTo out ∧ b.BroadcastsTo out) ∧
      (a.broadcast b).toOption = (b.broadcast a).toOption ∧
      a.broadcast a = .ok a ∧
      (a.broadcast [] = .ok a ∧ Shape.broadcast [] a = .ok a) ∧
      ∀ c, (a.broadcast b >>= fun d => d.broadcast c).toOption =
        (b.broadcast c >>= fun d => a.broadcast d).toOption := by
  simp only [broadcastsTo_iff_below]
  -- Only that there is a common shape, and that it is the least, is not a lemma already.
  refine ⟨?_, ?_, broadcast_comm a b, broadcast_self a,
    ⟨broadcast_scalar a, scalar_broadcast a⟩, broadcast_assoc a b⟩
  · constructor
    · rintro ⟨c, hc⟩
      exact ⟨c, below_of_broadcast hc⟩
    · rintro ⟨out, ha, hb⟩
      obtain ⟨c, hc, -⟩ := exists_broadcast ha hb
      exact ⟨c, hc⟩
  · intro c hc out
    rw [← bounds_broadcast, hc]
    simp [Bounds]

/-- A column and a row with no entries have a common shape, and any shape that both broadcast to
has no entries either. -/
theorem broadcast_least_column_empty_row :
    Shape.broadcast [3, 1] [0] = .ok [3, 0] ∧
      ∀ out, BroadcastsTo [3, 0] out ↔ BroadcastsTo [3, 1] out ∧ BroadcastsTo [0] out := by
  have hCommon : Shape.broadcast [3, 1] [0] = .ok [3, 0] := by decide
  obtain ⟨-, hLeast, -⟩ := broadcast_least [3, 1] [0]
  exact ⟨hCommon, hLeast [3, 0] hCommon⟩

end Shape

end ArrayEquations
