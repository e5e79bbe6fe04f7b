import ArrayEquations.Operation.ResultShape
import ArrayEquations.Proofs.Position

/-!
# ArrayEquations — what the shape rules accept

Each shape rule is a chain of checks. Here every rule gets the condition under which it
succeeds, and its result.

Broadcasting aligns last axes, so extents are counted from the end: the common shape has
the common extent of its operands everywhere, and both operands stretch to it.

## Main definitions

* `Shape.trailing` — an extent counted from the end.
* `Shape.Stretches` — a shape stretches to another one along given axes.
* `ContractionAxes.Pairable` — two shapes can be contracted.

## Main results

* `Shape.broadcast_eq_ok` — the common shape, extent by extent.
* `Shape.exists_broadcast` — operands that stretch to one shape have a common shape.
* `Shape.checkBroadcast_eq_ok`, `sumShape_eq_ok`, `transposeShape_eq_ok`,
  `ContractionAxes.resultShape_eq_ok` — when the other rules succeed.
-/

namespace ArrayEquations

/-! ## Lists of axes -/

private theorem checkAxesFrom_eq_ok {operation : String} {rank : Nat} {seen axes : List Nat} :
    checkAxesFrom operation rank seen axes = .ok () ↔
      (∀ a ∈ axes, a < rank ∧ a ∉ seen) ∧ axes.Nodup := by
  induction axes generalizing seen with
  | nil => simp [checkAxesFrom]
  | cons a rest ih =>
    rw [checkAxesFrom]
    by_cases hRank : rank ≤ a
    · rw [if_pos hRank]
      constructor
      · intro h
        exact absurd h (by simp)
      · rintro ⟨h, -⟩
        have := (h a List.mem_cons_self).1
        omega
    · rw [if_neg hRank]
      by_cases hSeen : seen.contains a = true
      · rw [if_pos hSeen]
        constructor
        · intro h
          exact absurd h (by simp)
        · rintro ⟨h, -⟩
          exact absurd (List.contains_iff_mem.mp hSeen) (h a List.mem_cons_self).2
      · -- The rest is checked against the axes seen so far and `a` as well.
        rw [if_neg hSeen, ih, List.nodup_cons]
        have hNew : a ∉ seen := fun h => hSeen (List.contains_iff_mem.mpr h)
        constructor
        · rintro ⟨hRest, hNodup⟩
          refine ⟨?_, fun ha => (hRest a ha).2 List.mem_cons_self, hNodup⟩
          intro b hb
          rcases List.mem_cons.mp hb with rfl | hb
          · exact ⟨by omega, hNew⟩
          · exact ⟨(hRest b hb).1, fun h => (hRest b hb).2 (List.mem_cons_of_mem _ h)⟩
        · rintro ⟨hAll, hFirst, hNodup⟩
          refine ⟨?_, hNodup⟩
          intro b hb
          obtain ⟨hbRank, hbSeen⟩ := hAll b (List.mem_cons_of_mem _ hb)
          refine ⟨hbRank, ?_⟩
          intro h
          rcases List.mem_cons.mp h with rfl | h
          · exact hFirst hb
          · exact hbSeen h

/-- An axis list is accepted iff it names existing axes, each at most once. -/
theorem checkAxes_eq_ok {operation : String} {rank : Nat} {axes : List Nat} :
    checkAxes operation rank axes = .ok () ↔ (∀ a ∈ axes, a < rank) ∧ axes.Nodup := by
  rw [checkAxes, checkAxesFrom_eq_ok]
  simp

/-- Paired axes are accepted iff their extents agree. -/
theorem checkExtents_eq_ok {lhs rhs : Shape} {paired : List (Nat × Nat)} :
    checkExtents lhs rhs paired = .ok () ↔
      ∀ x ∈ paired, lhs.extent x.1 = rhs.extent x.2 := by
  induction paired with
  | nil => simp [checkExtents]
  | cons x rest ih =>
    obtain ⟨l, r⟩ := x
    rw [checkExtents]
    by_cases h : lhs.extent l = rhs.extent r
    · rw [if_pos h, ih]
      simp [h]
    · rw [if_neg h]
      simp [h]

/-! ## Common shapes -/

theorem commonExtent?_one_left (y : Nat) : commonExtent? 1 y = some y := by
  unfold commonExtent?
  split
  · rename_i h
    rw [h]
  · rfl

theorem commonExtent?_one_right (x : Nat) : commonExtent? x 1 = some x := by
  unfold commonExtent?
  split
  · rfl
  · simp

theorem commonExtent?_eq_some {x y z : Nat} (h : commonExtent? x y = some z) :
    (x = 1 ∨ x = z) ∧ (y = 1 ∨ y = z) ∧ (z = x ∨ z = y) := by
  unfold commonExtent? at h
  split at h
  · simp at h
    omega
  · split at h
    · simp at h
      omega
    · split at h
      · simp at h
        omega
      · exact absurd h (by simp)

/-- Two extents that stretch to a third one have a common extent. -/
theorem exists_commonExtent {x y z : Nat} (hx : x = 1 ∨ x = z) (hy : y = 1 ∨ y = z) :
    ∃ c, commonExtent? x y = some c := by
  rcases hx with rfl | rfl
  · exact ⟨y, commonExtent?_one_left y⟩
  · rcases hy with rfl | rfl
    · exact ⟨x, commonExtent?_one_right x⟩
    · exact ⟨y, by simp [commonExtent?]⟩

private theorem eq_of_getD_eq {xs ys : List Nat} (hLength : xs.length = ys.length)
    (hGet : ∀ k, xs.getD k 1 = ys.getD k 1) : xs = ys := by
  apply List.ext_getElem hLength
  intro k h₁ h₂
  have := hGet k
  simpa only [List.getD, List.getElem?_eq_getElem h₁, List.getElem?_eq_getElem h₂,
    Option.getD_some] using this

private theorem broadcastReversed?_eq_some {xs ys zs : List Nat} :
    broadcastReversed? xs ys = some zs ↔
      zs.length = max xs.length ys.length ∧
        ∀ k, commonExtent? (xs.getD k 1) (ys.getD k 1) = some (zs.getD k 1) := by
  induction xs generalizing ys zs with
  | nil =>
    rw [broadcastReversed?]
    simp only [List.getD_nil, commonExtent?_one_left, Option.some.injEq, List.length_nil,
      Nat.zero_max]
    constructor
    · rintro rfl
      exact ⟨rfl, fun _ => rfl⟩
    · rintro ⟨hLength, hGet⟩
      exact eq_of_getD_eq hLength.symm hGet
  | cons x xs ih =>
    cases ys with
    | nil =>
      rw [broadcastReversed?]
      · simp only [List.getD_nil, commonExtent?_one_right, Option.some.injEq, List.length_nil,
          Nat.max_zero]
        constructor
        · rintro rfl
          exact ⟨rfl, fun _ => rfl⟩
        · rintro ⟨hLength, hGet⟩
          exact eq_of_getD_eq hLength.symm hGet
      · simp
    -- Both shapes have one more axis, which settles the first extent of the result.
    | cons y ys =>
      rw [broadcastReversed?]
      constructor
      · intro h
        obtain ⟨d, hd, h⟩ := Option.bind_eq_some_iff.mp h
        obtain ⟨ds, hds, h⟩ := Option.bind_eq_some_iff.mp h
        obtain rfl := Option.some.inj h
        obtain ⟨hLength, hGet⟩ := ih.mp hds
        refine ⟨by simp [hLength, Nat.succ_max_succ], ?_⟩
        intro k
        cases k with
        | zero => exact hd
        | succ k => exact hGet k
      · rintro ⟨hLength, hGet⟩
        cases zs with
        | nil => simp at hLength
        | cons d ds =>
          have hd : commonExtent? x y = some d := hGet 0
          have hds : broadcastReversed? xs ys = some ds :=
            ih.mpr ⟨by simpa [Nat.succ_max_succ] using hLength, fun k => hGet (k + 1)⟩
          rw [hd, hds]
          rfl

private theorem exists_broadcastReversed {xs ys : List Nat}
    (h : ∀ k, ∃ c, commonExtent? (xs.getD k 1) (ys.getD k 1) = some c) :
    ∃ zs, broadcastReversed? xs ys = some zs := by
  induction xs generalizing ys with
  | nil => exact ⟨ys, by rw [broadcastReversed?]⟩
  | cons x xs ih =>
    cases ys with
    | nil => exact ⟨x :: xs, by rw [broadcastReversed?]; simp⟩
    | cons y ys =>
      obtain ⟨d, hd⟩ := h 0
      obtain ⟨ds, hds⟩ := ih fun k => h (k + 1)
      refine ⟨d :: ds, ?_⟩
      rw [broadcastReversed?, show commonExtent? x y = some d from hd, hds]
      rfl

namespace Shape

open Position

/-- An extent counted from the end; an axis that the shape does not have has extent one. -/
def trailing (s : Shape) (k : Nat) : Nat := s.reverse.getD k 1

theorem trailing_eq_extent {s : Shape} {k : Nat} (hk : k < s.rank) :
    s.trailing k = s.extent (s.rank - 1 - k) := by
  simp only [rank] at hk
  simp [trailing, extent, rank, List.getD, List.getElem?_reverse hk]

theorem trailing_of_rank_le {s : Shape} {k : Nat} (hk : s.rank ≤ k) : s.trailing k = 1 := by
  simp only [rank] at hk
  simp [trailing, List.getD, hk]

/-- Stretching, extent by extent from the end. -/
theorem below_iff_trailing {s out : Shape} :
    s.Below out ↔ s.rank ≤ out.rank ∧ ∀ k, s.trailing k = 1 ∨ s.trailing k = out.trailing k := by
  constructor
  · intro h
    have hRank := h.rank_le
    refine ⟨hRank, ?_⟩
    intro k
    by_cases hk : k < s.rank
    · -- Counted from the end, axis `k` of either shape is the same axis.
      have hExtent := h.extent (s.rank - 1 - k) (by omega)
      rw [trailing_eq_extent hk, trailing_eq_extent (by omega : k < out.rank)]
      rwa [show out.rank - s.rank + (s.rank - 1 - k) = out.rank - 1 - k by omega] at hExtent
    · exact Or.inl (trailing_of_rank_le (by omega))
  · rintro ⟨hRank, hTrailing⟩
    refine ⟨hRank, ?_⟩
    intro k hk
    have h := hTrailing (s.rank - 1 - k)
    rw [trailing_eq_extent (by omega), trailing_eq_extent (by omega : s.rank - 1 - k < out.rank)]
      at h
    rwa [show s.rank - 1 - (s.rank - 1 - k) = k by omega,
      show out.rank - 1 - (s.rank - 1 - k) = out.rank - s.rank + k by omega] at h

/-- The common shape has the common extents. -/
theorem broadcast_eq_ok {a b out : Shape} :
    a.broadcast b = .ok out ↔
      out.rank = max a.rank b.rank ∧
        ∀ k, commonExtent? (a.trailing k) (b.trailing k) = some (out.trailing k) := by
  have h : broadcastReversed? a.reverse b.reverse = some out.reverse ↔ _ :=
    broadcastReversed?_eq_some
  rw [List.length_reverse, List.length_reverse, List.length_reverse] at h
  rw [show (out.rank = max a.rank b.rank ∧
    ∀ k, commonExtent? (a.trailing k) (b.trailing k) = some (out.trailing k)) ↔ _ from h.symm]
  rw [broadcast]
  cases hResult : broadcastReversed? a.reverse b.reverse with
  | none => simp
  | some zs =>
    rw [Except.ok.injEq, Option.some.injEq]
    constructor
    · rintro rfl
      rw [List.reverse_reverse]
    · rintro rfl
      rw [List.reverse_reverse]

/-- Operands without a common shape are what the error speaks of. -/
theorem eq_incompatible {a b : Shape} {e : ShapeError} (h : a.broadcast b = .error e) :
    e = .incompatible a b := by
  unfold broadcast at h
  split at h
  · exact absurd h (by simp)
  · exact (Except.error.inj h).symm

/-- Both operands stretch to their common shape. -/
theorem below_of_broadcast {a b out : Shape} (h : a.broadcast b = .ok out) :
    a.Below out ∧ b.Below out := by
  obtain ⟨hRank, hExtent⟩ := broadcast_eq_ok.mp h
  rw [below_iff_trailing, below_iff_trailing]
  refine ⟨⟨by omega, ?_⟩, by omega, ?_⟩
  · intro k
    exact (commonExtent?_eq_some (hExtent k)).1
  · intro k
    exact (commonExtent?_eq_some (hExtent k)).2.1

/-- Operands whose extents have common ones, two by two from the end, have a common shape. -/
theorem exists_broadcast_of_extents {a b : Shape}
    (h : ∀ k, ∃ d, commonExtent? (a.trailing k) (b.trailing k) = some d) :
    ∃ out, a.broadcast b = .ok out := by
  obtain ⟨zs, hzs⟩ := exists_broadcastReversed h
  exact ⟨zs.reverse, by rw [broadcast, hzs]⟩

/-- Operands that stretch to one shape have a common shape, which stretches to it too. -/
theorem exists_broadcast {a b out : Shape} (ha : a.Below out) (hb : b.Below out) :
    ∃ c, a.broadcast b = .ok c ∧ c.Below out := by
  rw [below_iff_trailing] at ha hb
  obtain ⟨c, hOk⟩ := exists_broadcast_of_extents fun k =>
    exists_commonExtent (ha.2 k) (hb.2 k)
  refine ⟨c, hOk, ?_⟩
  obtain ⟨hRank, hExtent⟩ := broadcast_eq_ok.mp hOk
  rw [below_iff_trailing]
  refine ⟨by omega, ?_⟩
  intro k
  rcases (commonExtent?_eq_some (hExtent k)).2.2 with h | h
  · rw [h]
    exact ha.2 k
  · rw [h]
    exact hb.2 k

/-- An operand that stretches to the other one leaves its shape. -/
theorem broadcast_of_below_left {a out : Shape} (h : a.Below out) :
    a.broadcast out = .ok out := by
  obtain ⟨hRank, hTrailing⟩ := below_iff_trailing.mp h
  rw [broadcast_eq_ok]
  refine ⟨by omega, ?_⟩
  intro k
  rcases hTrailing k with hk | hk
  · rw [hk, commonExtent?_one_left]
  · rw [hk, commonExtent?, if_pos rfl]

theorem broadcast_of_below_right {a out : Shape} (h : a.Below out) :
    out.broadcast a = .ok out := by
  obtain ⟨hRank, hTrailing⟩ := below_iff_trailing.mp h
  rw [broadcast_eq_ok]
  refine ⟨by omega, ?_⟩
  intro k
  rcases hTrailing k with hk | hk
  · rw [hk, commonExtent?_one_right]
  · rw [hk, commonExtent?, if_pos rfl]

theorem eq_of_broadcast_below {a b out : Shape} (h : a.broadcast b = .ok out)
    (hBelow : b.Below a) : out = a := by
  rw [broadcast_of_below_right hBelow] at h
  exact (Except.ok.inj h).symm

theorem eq_of_below_broadcast {a b out : Shape} (h : a.broadcast b = .ok out)
    (hBelow : a.Below b) : out = b := by
  rw [broadcast_of_below_left hBelow] at h
  exact (Except.ok.inj h).symm

/-- Operands that were stretched to their common shape, or not, still have it. -/
theorem broadcast_of_stretched {a b a' b' out : Shape} (h : a.broadcast b = .ok out)
    (ha : a' = out ∨ a' = a) (hb : b' = out ∨ b' = b) : a'.broadcast b' = .ok out := by
  obtain ⟨haBelow, hbBelow⟩ := below_of_broadcast h
  rcases ha with rfl | rfl
  · rcases hb with rfl | rfl
    · exact broadcast_of_below_left (Below.refl _)
    · exact broadcast_of_below_right hbBelow
  · rcases hb with rfl | rfl
    · exact broadcast_of_below_left haBelow
    · exact h

/-! ## Broadcasts along given axes -/

/-- The shape stretches to the other one when its axis `k` becomes axis `dims[k]`. -/
structure Stretches (s : Shape) (dims : List Nat) (out : Shape) : Prop where
  length_eq : dims.length = s.rank
  increasing : dims.Pairwise (· < ·)
  lt_rank : ∀ d ∈ dims, d < out.rank
  extent : ∀ k < s.rank, s.extent k = 1 ∨ s.extent k = out.extent (dims.getD k 0)

private theorem checkBroadcastFrom_eq_ok {operand target : Shape} {dims : List Nat}
    {previous : Option Nat} {paired : List (Nat × Nat)} :
    checkBroadcastFrom operand target dims previous paired = .ok () ↔
      (∀ x ∈ paired, x.2 < target.rank ∧ (∀ d ∈ previous, d < x.2) ∧
        (x.1 = 1 ∨ x.1 = target.extent x.2)) ∧
      (paired.map (·.2)).Pairwise (· < ·) := by
  induction paired generalizing previous with
  | nil => simp [checkBroadcastFrom]
  | cons x rest ih =>
    obtain ⟨extent, d⟩ := x
    rw [checkBroadcastFrom]
    -- One guard refuses both an axis out of range and one that does not exceed the last.
    by_cases hAxis : target.rank ≤ d || previous.any (d ≤ ·)
    · rw [if_pos hAxis]
      constructor
      · intro h
        exact absurd h (by simp)
      · rintro ⟨h, -⟩
        obtain ⟨hRank, hPrevious, -⟩ := h _ List.mem_cons_self
        rcases Bool.or_eq_true_iff.mp hAxis with hAxis | hAxis
        · have := of_decide_eq_true hAxis
          simp only at hRank
          omega
        · obtain ⟨e, he, hle⟩ := (Option.any_eq_true _ _).mp hAxis
          have h₁ := hPrevious e he
          have h₂ := of_decide_eq_true hle
          simp only at h₁
          omega
    · rw [if_neg hAxis]
      rw [Bool.or_eq_true, not_or] at hAxis
      obtain ⟨hRank, hPrevious⟩ := hAxis
      have hRank : d < target.rank := by simpa using hRank
      have hPrevious : ∀ e ∈ previous, e < d := by
        intro e he
        by_contra hle
        exact hPrevious ((Option.any_eq_true _ _).mpr ⟨e, he, by simpa using hle⟩)
      by_cases hExtent : (extent ≠ 1 && extent ≠ target.extent d) = true
      · rw [if_pos hExtent]
        constructor
        · intro h
          exact absurd h (by simp)
        · rintro ⟨h, -⟩
          obtain ⟨-, -, h⟩ := h _ List.mem_cons_self
          simp only [ne_eq, Bool.and_eq_true, decide_eq_true_eq] at hExtent
          simp only at h
          tauto
      · rw [if_neg hExtent, ih, List.map_cons, List.pairwise_cons]
        have hExtent : extent = 1 ∨ extent = target.extent d := by
          simp only [ne_eq, Bool.and_eq_true, decide_eq_true_eq] at hExtent
          tauto
        constructor
        · rintro ⟨hRest, hPairwise⟩
          refine ⟨?_, ?_, hPairwise⟩
          · intro y hy
            rcases List.mem_cons.mp hy with rfl | hy
            · exact ⟨hRank, hPrevious, hExtent⟩
            · obtain ⟨h₁, h₂, h₃⟩ := hRest y hy
              have hd := h₂ d rfl
              exact ⟨h₁, fun e he => Nat.lt_trans (hPrevious e he) hd, h₃⟩
          · intro e he
            obtain ⟨y, hy, rfl⟩ := List.mem_map.mp he
            exact (hRest y hy).2.1 d rfl
        · rintro ⟨hAll, hFirst, hPairwise⟩
          refine ⟨?_, hPairwise⟩
          intro y hy
          obtain ⟨h₁, -, h₃⟩ := hAll y (List.mem_cons_of_mem _ hy)
          refine ⟨h₁, ?_, h₃⟩
          intro e he
          obtain rfl := Option.mem_some.mp he
          exact hFirst _ (List.mem_map_of_mem hy)

/-- A broadcast is accepted iff the operand stretches along its axes. -/
theorem checkBroadcast_eq_ok {s out : Shape} {dims : List Nat} :
    s.checkBroadcast dims out = .ok () ↔ s.Stretches dims out := by
  rw [checkBroadcast]
  by_cases hLength : dims.length = s.rank
  · have hSecond : (s.zip dims).map (·.2) = dims := List.map_snd_zip (Nat.le_of_eq hLength)
    rw [if_neg (by simpa using hLength), checkBroadcastFrom_eq_ok, hSecond]
    -- The loop runs over pairs of an extent and the axis that it goes to.
    have hZip : ∀ k (hk : k < (s.zip dims).length),
        (s.zip dims)[k] = (s.extent k, dims.getD k 0) := by
      intro k hk
      rw [List.length_zip] at hk
      have hs : k < s.length := by omega
      have hd : k < dims.length := by omega
      simp [extent, List.getD, hs, hd]
    constructor
    · rintro ⟨hAll, hPairwise⟩
      refine ⟨hLength, hPairwise, ?_, ?_⟩
      · intro d hd
        rw [← hSecond] at hd
        obtain ⟨x, hx, rfl⟩ := List.mem_map.mp hd
        exact (hAll x hx).1
      · intro k hk
        have hk' : k < (s.zip dims).length := by
          rw [List.length_zip, hLength]
          simpa [rank] using hk
        have h := (hAll _ (List.getElem_mem hk')).2.2
        rwa [hZip k hk'] at h
    · intro h
      refine ⟨?_, h.increasing⟩
      intro x hx
      obtain ⟨k, hk, rfl⟩ := List.getElem_of_mem hx
      have hk' : k < s.rank := by
        rw [List.length_zip] at hk
        simp only [rank]
        omega
      have hd : k < dims.length := by omega
      rw [hZip k hk]
      refine ⟨?_, by simp, h.extent k hk'⟩
      have hGet : dims.getD k 0 = dims[k] := by simp [List.getD, hd]
      rw [hGet]
      exact h.lt_rank _ (List.getElem_mem hd)
  · rw [if_pos (by simpa using hLength)]
    constructor
    · intro h
      exact absurd h (by simp)
    · intro h
      exact absurd h.length_eq hLength

/-- A shape that stretches with the last axes aligned stretches along the trailing axes. -/
theorem Below.stretches {s out : Shape} (h : s.Below out) :
    s.Stretches (trailingDims s.rank out.rank) out := by
  have hRank := h.rank_le
  refine ⟨by simp [trailingDims], ?_, ?_, ?_⟩
  · rw [trailingDims, List.pairwise_map]
    exact List.pairwise_lt_range.imp fun hLt => by omega
  · intro d hd
    obtain ⟨k, hk, rfl⟩ := List.mem_map.mp hd
    have := List.mem_range.mp hk
    omega
  · intro k hk
    rw [getD_trailingDims hk]
    exact h.extent k hk

theorem Stretches.getD_lt {s out : Shape} {dims : List Nat} (h : s.Stretches dims out) {k : Nat}
    (hk : k < s.rank) : dims.getD k 0 < out.rank := by
  have hd : k < dims.length := by
    rw [h.length_eq]
    exact hk
  have hGet : dims.getD k 0 = dims[k] := by simp [List.getD, hd]
  rw [hGet]
  exact h.lt_rank _ (List.getElem_mem hd)

/-- The position of a broadcast operand lies in the operand. -/
theorem project_mem_box {s out : Shape} {dims : List Nat} (h : s.Stretches dims out)
    {p : Position} (hp : p ∈ out.box) : s.project dims p ∈ s.box := by
  apply tabulate_mem_box
  intro k hk
  split
  · omega
  · rename_i hExtent
    rw [(h.extent k hk).resolve_left hExtent]
    exact coord_lt hp (h.getD_lt hk)

theorem checkReshape_eq_ok {s out : Shape} :
    s.checkReshape out = .ok () ↔ s.size = out.size := by
  rw [checkReshape]
  split <;> simp_all

end Shape

/-! ## Result shapes -/

/-- A sum is accepted iff its axes exist and differ; it keeps the other axes. -/
theorem sumShape_eq_ok {axes : List Nat} {s out : Shape} :
    sumShape axes s = .ok out ↔
      ((∀ a ∈ axes, a < s.rank) ∧ axes.Nodup) ∧
        out = (s.axes.filter fun a => !axes.contains a).map s.extent := by
  rw [sumShape, ← @checkAxes_eq_ok "reduce_sum"]
  cases checkAxes "reduce_sum" s.rank axes with
  | error e => simp [bind, Except.bind]
  | ok _ =>
    show Except.ok _ = Except.ok out ↔ _
    rw [Except.ok.injEq]
    simp [eq_comm]

/-- A transposition is accepted iff its list is a permutation of the axes. -/
theorem transposeShape_eq_ok {permutation : List Nat} {s out : Shape} :
    transposeShape permutation s = .ok out ↔
      (permutation.length = s.rank ∧ (∀ a ∈ permutation, a < s.rank) ∧ permutation.Nodup) ∧
        out = permutation.map s.extent := by
  rw [transposeShape, ← @checkAxes_eq_ok "transpose"]
  by_cases hLength : permutation.length = s.rank
  · rw [if_neg (by simpa using hLength)]
    cases checkAxes "transpose" s.rank permutation with
    | error e => simp [bind, Except.bind]
    | ok _ =>
      show Except.ok _ = Except.ok out ↔ _
      rw [Except.ok.injEq]
      simp [hLength, eq_comm]
  · rw [if_pos (by simpa using hLength)]
    simp [hLength, throw, throwThe, MonadExceptOf.throw, bind, Except.bind]

namespace ContractionAxes

/-- The axes pair those of two operands: each axis is named at most once, and the partners'
extents agree. -/
structure Pairable (axes : ContractionAxes) (ls rs : Shape) : Prop where
  contract_length : axes.lhsContract.length = axes.rhsContract.length
  batch_length : axes.lhsBatch.length = axes.rhsBatch.length
  lhs_lt : ∀ a ∈ axes.lhsContract ++ axes.lhsBatch, a < ls.rank
  lhs_nodup : (axes.lhsContract ++ axes.lhsBatch).Nodup
  rhs_lt : ∀ a ∈ axes.rhsContract ++ axes.rhsBatch, a < rs.rank
  rhs_nodup : (axes.rhsContract ++ axes.rhsBatch).Nodup
  contract_extent : axes.lhsContract.map ls.extent = axes.rhsContract.map rs.extent
  batch_extent : axes.lhsBatch.map ls.extent = axes.rhsBatch.map rs.extent

section Partners

variable {axes : ContractionAxes} {ls rs : Shape}

theorem Pairable.map_fst_contract (h : axes.Pairable ls rs) :
    (axes.lhsContract.zip axes.rhsContract).map (·.1) = axes.lhsContract :=
  List.map_fst_zip (Nat.le_of_eq h.contract_length)

theorem Pairable.map_snd_contract (h : axes.Pairable ls rs) :
    (axes.lhsContract.zip axes.rhsContract).map (·.2) = axes.rhsContract :=
  List.map_snd_zip (Nat.le_of_eq h.contract_length.symm)

theorem Pairable.map_fst_batch (h : axes.Pairable ls rs) :
    (axes.lhsBatch.zip axes.rhsBatch).map (·.1) = axes.lhsBatch :=
  List.map_fst_zip (Nat.le_of_eq h.batch_length)

theorem Pairable.map_snd_batch (h : axes.Pairable ls rs) :
    (axes.lhsBatch.zip axes.rhsBatch).map (·.2) = axes.rhsBatch :=
  List.map_snd_zip (Nat.le_of_eq h.batch_length.symm)

end Partners

/-- The shape of a contraction's result. -/
def outShape (axes : ContractionAxes) (ls rs : Shape) : Shape :=
  axes.lhsBatch.map ls.extent ++ (axes.lhsFree ls.rank).map ls.extent ++
    (axes.rhsFree rs.rank).map rs.extent

/-- Two lists have the same images iff partners do. -/
theorem forall_zip_iff_map_eq {l r : List Nat} {f g : Nat → Nat} (h : l.length = r.length) :
    (∀ x ∈ l.zip r, f x.1 = g x.2) ↔ l.map f = r.map g := by
  induction l generalizing r with
  | nil =>
    cases r with
    | nil => simp
    | cons _ _ => simp at h
  | cons a l ih =>
    cases r with
    | nil => simp at h
    | cons b r =>
      rw [List.zip_cons_cons, List.forall_mem_cons, ih (by simpa using h), List.map_cons,
        List.map_cons, List.cons.injEq]

/-- A contraction is accepted iff its axes pair the operands. -/
theorem resultShape_eq_ok {axes : ContractionAxes} {ls rs out : Shape} :
    axes.resultShape ls rs = .ok out ↔ axes.Pairable ls rs ∧ out = axes.outShape ls rs := by
  rw [resultShape]
  by_cases hLengths : axes.lhsContract.length = axes.rhsContract.length ∧
      axes.lhsBatch.length = axes.rhsBatch.length
  · obtain ⟨hContract, hBatch⟩ := hLengths
    rw [if_neg (by simp [hContract, hBatch])]
    -- The extents are compared in one pass over the contracted and then the batch axes.
    have hExtents : (∀ x ∈ (axes.lhsContract ++ axes.lhsBatch).zip
        (axes.rhsContract ++ axes.rhsBatch), ls.extent x.1 = rs.extent x.2) ↔
        axes.lhsContract.map ls.extent = axes.rhsContract.map rs.extent ∧
          axes.lhsBatch.map ls.extent = axes.rhsBatch.map rs.extent := by
      rw [forall_zip_iff_map_eq (by simp [hContract, hBatch]), List.map_append, List.map_append]
      constructor
      · intro h
        exact List.append_inj h (by simp [hContract])
      · rintro ⟨h₁, h₂⟩
        rw [h₁, h₂]
    have hChecks : axes.Pairable ls rs ↔
        checkAxes "dot_general" ls.rank (axes.lhsContract ++ axes.lhsBatch) = .ok () ∧
        checkAxes "dot_general" rs.rank (axes.rhsContract ++ axes.rhsBatch) = .ok () ∧
        checkExtents ls rs ((axes.lhsContract ++ axes.lhsBatch).zip
          (axes.rhsContract ++ axes.rhsBatch)) = .ok () := by
      rw [checkAxes_eq_ok, checkAxes_eq_ok, checkExtents_eq_ok, hExtents]
      constructor
      · intro h
        exact ⟨⟨h.lhs_lt, h.lhs_nodup⟩, ⟨h.rhs_lt, h.rhs_nodup⟩, h.contract_extent,
          h.batch_extent⟩
      · rintro ⟨⟨hl, hl'⟩, ⟨hr, hr'⟩, hc, hb⟩
        exact ⟨hContract, hBatch, hl, hl', hr, hr', hc, hb⟩
    rw [hChecks]
    simp only
    -- The first check that fails is the answer, so the cases are in the order of the checks.
    cases checkAxes "dot_general" ls.rank (axes.lhsContract ++ axes.lhsBatch) with
    | error e => simp [bind, Except.bind]
    | ok _ =>
      cases checkAxes "dot_general" rs.rank (axes.rhsContract ++ axes.rhsBatch) with
      | error e => simp [bind, Except.bind]
      | ok _ =>
        cases checkExtents ls rs ((axes.lhsContract ++ axes.lhsBatch).zip
          (axes.rhsContract ++ axes.rhsBatch)) with
        | error e => simp [bind, Except.bind]
        | ok _ =>
          show Except.ok (axes.outShape ls rs) = Except.ok out ↔ _
          rw [Except.ok.injEq]
          simp [eq_comm]
  · have hTest : (axes.lhsContract.length ≠ axes.rhsContract.length ||
        axes.lhsBatch.length ≠ axes.rhsBatch.length) = true := by
      simp only [ne_eq, Bool.or_eq_true, decide_eq_true_eq]
      tauto
    rw [if_pos hTest]
    constructor
    · intro h
      exact absurd h (by simp [throw, throwThe, MonadExceptOf.throw, bind, Except.bind])
    · rintro ⟨h, -⟩
      exact absurd ⟨h.contract_length, h.batch_length⟩ hLengths

end ContractionAxes

end ArrayEquations
