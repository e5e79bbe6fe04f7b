import ArrayEquations.Proofs.Formula
import ArrayEquations.Proofs.Permutation
import ArrayEquations.Proofs.ShapeRules

/-!
# ArrayEquations — the indices of axes

While a formula is built, each axis of extent other than one carries an index that is in
scope, and the other axes carry none. Under an assignment the indices of a value's axes
are a position of its array. The rules that hand the axes of a result down to an operand
keep the first fact, and they compute the position at which the operand is read.

## Main definitions

* `Axes.position` — the position that an assignment gives to axes.
* `Axes.Fits` — axes of a shape carry the indices that they need.

## Main results

* `Axes.Fits.spread_indices` — a symbol with the indices of its axes is read at their
  position.
* `fits_elementwiseAxes`, `fits_broadcastAxes`, `fits_transposeAxes`, `fits_reshapeAxes` —
  operands get the indices that they need.
* `position_elementwiseAxes`, `position_broadcastAxes`, `position_transposeAxes`,
  `position_reshapeAxes` — operands are read where the result's entry comes from.
-/

namespace ArrayEquations

open Position

/-- The coordinate of an axis; without an index it is zero. -/
def coordOf (σ : Assignment) (i : Option Index) : Nat := (i.map σ).getD 0

/-- The axis has an index in scope, or none if its extent is one. -/
def FitsAxis (live : List Index) (extent : Nat) (i : Option Index) : Prop :=
  if extent = 1 then i = none else ∃ x ∈ live, i = some x

theorem FitsAxis.of_one {live : List Index} {i : Option Index} (h : i = none) :
    FitsAxis live 1 i := by
  rw [FitsAxis, if_pos rfl]
  exact h

theorem FitsAxis.of_ne_one {live : List Index} {extent : Nat} {i : Option Index}
    (hExtent : extent ≠ 1) (h : ∃ x ∈ live, i = some x) : FitsAxis live extent i := by
  rw [FitsAxis, if_neg hExtent]
  exact h

theorem FitsAxis.eq_none {live : List Index} {i : Option Index} (h : FitsAxis live 1 i) :
    i = none := by
  rwa [FitsAxis, if_pos rfl] at h

theorem FitsAxis.exists_some {live : List Index} {extent : Nat} {i : Option Index}
    (h : FitsAxis live extent i) (hExtent : extent ≠ 1) : ∃ x ∈ live, i = some x := by
  rwa [FitsAxis, if_neg hExtent] at h

theorem FitsAxis.mono {live live' : List Index} {extent : Nat} {i : Option Index}
    (h : FitsAxis live extent i) (hLive : live ⊆ live') : FitsAxis live' extent i := by
  by_cases hExtent : extent = 1
  · subst hExtent
    exact .of_one h.eq_none
  · obtain ⟨x, hx, rfl⟩ := h.exists_some hExtent
    exact .of_ne_one hExtent ⟨x, hLive hx, rfl⟩

/-- The index of a stretched axis is dropped where the operand's extent is one. -/
theorem FitsAxis.unlessSingle {live : List Index} {extent outExtent : Nat} {i : Option Index}
    (h : FitsAxis live outExtent i) (hExtent : extent = 1 ∨ extent = outExtent) :
    FitsAxis live extent (unlessSingle extent i) := by
  by_cases hOne : extent = 1
  · subst hOne
    exact .of_one (by rw [ArrayEquations.unlessSingle, if_pos rfl])
  · rw [ArrayEquations.unlessSingle, if_neg hOne]
    rwa [hExtent.resolve_left hOne]

theorem coordOf_unlessSingle (σ : Assignment) (extent : Nat) (i : Option Index) :
    coordOf σ (unlessSingle extent i) = if extent = 1 then 0 else coordOf σ i := by
  unfold unlessSingle
  split <;> rfl

namespace Axes

/-- The position of axes under an assignment. -/
def position (axes : Axes) (σ : Assignment) : Position := axes.map (coordOf σ)

/-- The axes of a shape carry the indices that they need, all of them in scope. -/
structure Fits (axes : Axes) (live : List Index) (s : Shape) : Prop where
  length_eq : axes.length = s.rank
  axis : ∀ k < s.rank, FitsAxis live (s.extent k) (axes.at? k)

@[simp] theorem at?_cons_zero (i : Option Index) (axes : Axes) : at? (i :: axes) 0 = i := by
  simp [at?]

@[simp] theorem at?_cons_succ (i : Option Index) (axes : Axes) (k : Nat) :
    at? (i :: axes) (k + 1) = axes.at? k := by
  simp [at?]

theorem at?_map {ks : List Nat} {f : Nat → Option Index} {k : Nat} (hk : k < ks.length) :
    at? (ks.map f) k = f ks[k] := by
  simp [at?, hk]

theorem coord_position (axes : Axes) (σ : Assignment) (k : Nat) :
    (axes.position σ).coord k = coordOf σ (axes.at? k) := by
  unfold position coord at?
  rw [List.getD, List.getElem?_map]
  cases axes[k]? <;> rfl

@[simp] theorem length_position (axes : Axes) (σ : Assignment) :
    (axes.position σ).length = axes.length := by
  simp [position]

namespace Fits

variable {axes : Axes} {live live' : List Index} {s out : Shape}

theorem nil (live : List Index) : Fits [] live [] :=
  ⟨rfl, fun _ hk => absurd hk (Nat.not_lt_zero _)⟩

theorem cons_iff {i : Option Index} {n : Nat} :
    Fits (i :: axes) live (n :: s) ↔ FitsAxis live n i ∧ axes.Fits live s := by
  constructor
  · intro h
    refine ⟨?_, by simpa using h.length_eq, ?_⟩
    · simpa using h.axis 0 (by simp)
    · intro k hk
      simpa using h.axis (k + 1) (by simpa using hk)
  · rintro ⟨hFirst, h⟩
    refine ⟨by simp [h.length_eq], ?_⟩
    intro k hk
    cases k with
    | zero => simpa using hFirst
    | succ k => simpa using h.axis k (by simpa using hk)

theorem mono (h : axes.Fits live s) (hLive : live ⊆ live') : axes.Fits live' s :=
  ⟨h.length_eq, fun k hk => (h.axis k hk).mono hLive⟩

theorem length_position (h : axes.Fits live s) (σ : Assignment) :
    (axes.position σ).length = s.rank := by
  rw [Axes.length_position, h.length_eq]

/-- Assignments that agree on the scope give the same position. -/
theorem position_congr (h : axes.Fits live s) {σ τ : Assignment}
    (hAgree : ∀ i ∈ live, τ i = σ i) : axes.position τ = axes.position σ := by
  apply Position.ext
  · rw [h.length_position, h.length_position]
  · intro k hk
    rw [h.length_position] at hk
    rw [coord_position, coord_position]
    by_cases hExtent : s.extent k = 1
    · have hAxis := h.axis k hk
      rw [hExtent] at hAxis
      rw [hAxis.eq_none]
      rfl
    · obtain ⟨i, hi, hEq⟩ := (h.axis k hk).exists_some hExtent
      rw [hEq]
      exact hAgree i hi

/-- Induction along the axes of a shape: one of extent one has no index, every other one has. -/
@[elab_as_elim]
theorem alongAxes {P : (axes : Axes) → (s : Shape) → axes.Fits live s → Prop}
    (nil : P [] [] (.nil live))
    (single : ∀ {axes s} (h : axes.Fits live s), P axes s h →
      P (none :: axes) (1 :: s) (cons_iff.mpr ⟨.of_one rfl, h⟩))
    (indexed : ∀ {axes s n x} (hn : n ≠ 1) (hx : x ∈ live) (h : axes.Fits live s), P axes s h →
      P (some x :: axes) (n :: s) (cons_iff.mpr ⟨.of_ne_one hn ⟨x, hx, rfl⟩, h⟩))
    (h : axes.Fits live s) : P axes s h := by
  induction s generalizing axes with
  | nil =>
    obtain rfl : axes = [] := List.length_eq_zero_iff.mp h.length_eq
    exact nil
  | cons n s ih =>
    cases axes with
    | nil => exact absurd h.length_eq (by simp)
    | cons i axes =>
      obtain ⟨hFirst, hRest⟩ := cons_iff.mp h
      by_cases hn : n = 1
      · subst hn
        obtain rfl := hFirst.eq_none
        exact single hRest (ih hRest)
      · obtain ⟨x, hx, rfl⟩ := hFirst.exists_some hn
        exact indexed hn hx hRest (ih hRest)

/-- There is an index for each axis of extent other than one. -/
theorem length_indices (h : axes.Fits live s) :
    axes.indices.length = s.nonSingleton.length := by
  induction h using alongAxes with
  | nil => rfl
  | single _ ih => exact ih
  | @indexed axes s n x hn _ _ ih =>
    show (x :: indices axes).length = _
    rw [List.length_cons, ih, Shape.nonSingleton_cons hn, List.length_cons]

/-- A symbol with the indices of its axes is read at their position. -/
theorem spread_indices (h : axes.Fits live s) (σ : Assignment) :
    s.spread (axes.indices.map σ) = axes.position σ := by
  induction h using alongAxes with
  | nil => rfl
  | @single axes s _ ih =>
    rw [Shape.spread, if_pos rfl]
    exact congrArg (0 :: ·) ih
  | @indexed axes s n x hn _ _ ih =>
    rw [Shape.spread, if_neg hn]
    exact congrArg (σ x :: ·) ih

/-- Axes given one by one fit if each of them does. -/
theorem tabulate {f : Nat → Option Index}
    (h : ∀ k < s.rank, FitsAxis live (s.extent k) (f k)) : Fits (s.axes.map f) live s := by
  refine ⟨by simp [Shape.axes], ?_⟩
  intro k hk
  rw [at?_map (by simpa [Shape.axes] using hk)]
  simpa [Shape.axes] using h k hk

end Fits

theorem position_tabulate (s : Shape) (f : Nat → Option Index) (σ : Assignment) :
    position (s.axes.map f) σ = Position.tabulate s.rank fun k => coordOf σ (f k) := by
  rw [position, List.map_map, Position.tabulate, Shape.axes]
  rfl

end Axes

/-! ## Operands of elementwise operations, broadcasts and transpositions -/

section Operands

variable {axes : Axes} {live : List Index} {s out : Shape}

theorem elementwiseAxes_eq (s out : Shape) (axes : Axes) :
    elementwiseAxes s out axes = s.axes.map fun k =>
      unlessSingle (s.extent k) (axes.at? (out.rank - s.rank + k)) := by
  apply List.ext_getElem
  · simp [elementwiseAxes, Shape.axes, Shape.rank]
  · intro k h₁ h₂
    have hk : k < s.length := by simpa [elementwiseAxes] using h₁
    simp [elementwiseAxes, Shape.axes, Shape.extent, List.getD, hk]

theorem fits_elementwiseAxes (h : axes.Fits live out) (hBelow : s.Below out) :
    (elementwiseAxes s out axes).Fits live s := by
  have hRank := hBelow.rank_le
  rw [elementwiseAxes_eq]
  apply Axes.Fits.tabulate
  intro k hk
  exact (h.axis (out.rank - s.rank + k) (by omega)).unlessSingle (hBelow.extent k hk)

theorem position_elementwiseAxes (h : axes.Fits live out) (σ : Assignment) :
    (elementwiseAxes s out axes).position σ = s.align (axes.position σ) := by
  rw [elementwiseAxes_eq, Axes.position_tabulate, Shape.align, h.length_position]
  congr 1
  funext k
  rw [coordOf_unlessSingle, Axes.coord_position]

theorem broadcastAxes_eq {dims : List Nat} (hLength : dims.length = s.rank) (axes : Axes) :
    broadcastAxes s dims axes = s.axes.map fun k =>
      unlessSingle (s.extent k) (axes.at? (dims.getD k 0)) := by
  simp only [Shape.rank] at hLength
  apply List.ext_getElem
  · simp [broadcastAxes, Shape.axes, Shape.rank, hLength]
  · intro k h₁ h₂
    have hk : k < s.length := by
      simp [broadcastAxes] at h₁
      omega
    have hk' : k < dims.length := by omega
    simp [broadcastAxes, Shape.axes, Shape.extent, List.getD, hk, hk']

theorem fits_broadcastAxes {dims : List Nat} (h : axes.Fits live out)
    (hStretches : s.Stretches dims out) : (broadcastAxes s dims axes).Fits live s := by
  rw [broadcastAxes_eq hStretches.length_eq]
  apply Axes.Fits.tabulate
  intro k hk
  exact (h.axis _ (hStretches.getD_lt hk)).unlessSingle (hStretches.extent k hk)

theorem position_broadcastAxes {dims : List Nat} (hLength : dims.length = s.rank)
    (axes : Axes) (σ : Assignment) :
    (broadcastAxes s dims axes).position σ = s.project dims (axes.position σ) := by
  rw [broadcastAxes_eq hLength, Axes.position_tabulate, Shape.project]
  congr 1
  funext k
  rw [coordOf_unlessSingle, Axes.coord_position]

theorem transposeAxes_eq {permutation : List Nat} (hPermutation : IsPermutation permutation)
    (hLength : permutation.length = s.rank) (axes : Axes) :
    transposeAxes s permutation axes =
      s.axes.map fun axis => axes.at? (permutation.idxOf axis) := by
  apply List.map_congr_left
  intro axis hAxis
  have hLt : axis < permutation.length := by
    rw [hLength]
    exact List.mem_range.mp hAxis
  obtain ⟨k, hk, hEq⟩ := last_position_eq_idxOf hPermutation.nodup (hPermutation.mem hLt)
  rw [hk]
  simp only [hEq]

theorem fits_transposeAxes {permutation : List Nat} (hPermutation : IsPermutation permutation)
    (hLength : permutation.length = s.rank)
    (h : axes.Fits live (permutation.map s.extent)) :
    (transposeAxes s permutation axes).Fits live s := by
  rw [transposeAxes_eq hPermutation hLength]
  apply Axes.Fits.tabulate
  intro axis hAxis
  rw [← hLength] at hAxis
  have hLt := hPermutation.idxOf_lt hAxis
  have hFits := h.axis (permutation.idxOf axis) (by simpa [Shape.rank] using hLt)
  rwa [Shape.extent_map hLt, List.getElem_idxOf hLt] at hFits

theorem position_transposeAxes {permutation : List Nat}
    (hPermutation : IsPermutation permutation) (hLength : permutation.length = s.rank)
    (axes : Axes) (σ : Assignment) :
    (transposeAxes s permutation axes).position σ =
      unpermute permutation (axes.position σ) := by
  rw [transposeAxes_eq hPermutation hLength, Axes.position_tabulate, unpermute, hLength]
  congr 1
  funext axis
  rw [Axes.coord_position]

end Operands

/-! ## Operands of reshapes -/

section Reshapes

variable {axes given : Axes} {live : List Index} {s out : Shape}

/-- The indices of the axes whose extent is not one. -/
def survivors (axes : Axes) (out : Shape) : Axes :=
  ((axes.zip out).filter fun (_, extent) => extent != 1).map (·.1)

theorem survivors_one_cons (i : Option Index) (axes : Axes) (out : Shape) :
    survivors (i :: axes) (1 :: out) = survivors axes out := rfl

theorem survivors_cons {n : Nat} (hn : n ≠ 1) (i : Option Index) (axes : Axes) (out : Shape) :
    survivors (i :: axes) (n :: out) = i :: survivors axes out := by
  rw [survivors, List.zip_cons_cons, List.filter_cons_of_pos (by simpa using hn)]
  rfl

theorem fits_survivors (h : axes.Fits live out) :
    (survivors axes out).Fits live out.nonSingleton := by
  induction h using Axes.Fits.alongAxes with
  | nil => exact .nil live
  | single _ ih => exact ih
  | indexed hn hx _ ih =>
    rw [survivors_cons hn, Shape.nonSingleton_cons hn]
    exact Axes.Fits.cons_iff.mpr ⟨.of_ne_one hn ⟨_, hx, rfl⟩, ih⟩

theorem position_survivors (h : axes.Fits live out) (σ : Assignment) :
    (survivors axes out).position σ = out.squeeze (axes.position σ) := by
  induction h using Axes.Fits.alongAxes with
  | nil => rfl
  | @single axes out _ ih =>
    rw [survivors_one_cons, ih]
    exact (if_pos rfl).symm
  | @indexed axes out n x hn _ _ ih =>
    rw [survivors_cons hn]
    show σ x :: (survivors axes out).position σ = _
    rw [ih]
    exact (if_neg hn).symm

theorem fits_distribute (h : given.Fits live s.nonSingleton) :
    (distribute s given).Fits live s := by
  induction s generalizing given with
  | nil => exact .nil live
  | cons n s ih =>
    rw [distribute]
    by_cases hn : n = 1
    · subst hn
      rw [if_pos rfl]
      exact Axes.Fits.cons_iff.mpr ⟨.of_one rfl, ih h⟩
    · rw [Shape.nonSingleton_cons hn] at h
      cases given with
      | nil => exact absurd h.length_eq (by simp)
      | cons i given =>
        obtain ⟨hFirst, hRest⟩ := Axes.Fits.cons_iff.mp h
        rw [if_neg hn]
        exact Axes.Fits.cons_iff.mpr ⟨hFirst, ih hRest⟩

theorem position_distribute (s : Shape) (given : Axes) (σ : Assignment) :
    (distribute s given).position σ = s.spread (given.position σ) := by
  induction s generalizing given with
  | nil => rfl
  | cons n s ih =>
    rw [distribute, Shape.spread]
    by_cases hn : n = 1
    · rw [if_pos hn, if_pos hn, ← ih]
      rfl
    · rw [if_neg hn, if_neg hn]
      cases given with
      | nil => exact congrArg (0 :: ·) (ih [])
      | cons i given => exact congrArg (coordOf σ i :: ·) (ih given)

theorem fits_reshapeAxes (hSame : s.nonSingleton = out.nonSingleton)
    (h : axes.Fits live out) : (reshapeAxes s out axes).Fits live s :=
  fits_distribute (hSame ▸ fits_survivors h)

theorem position_reshapeAxes (hSame : s.nonSingleton = out.nonSingleton)
    (h : axes.Fits live out) {σ : Assignment} (hMem : axes.position σ ∈ out.box) :
    (reshapeAxes s out axes).position σ = s.reshaped out (axes.position σ) := by
  rw [Shape.reshaped_eq_spread_squeeze hSame hMem, ← position_survivors h]
  exact position_distribute s (survivors axes out) σ

end Reshapes

end ArrayEquations
