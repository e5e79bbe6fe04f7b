import ArrayEquations.Shape.Broadcast
import Mathlib.Algebra.BigOperators.Fin
import Mathlib.Algebra.BigOperators.Group.Finset.Sigma
import Mathlib.Algebra.BigOperators.Ring.Finset
import Mathlib.Data.Finset.Prod

/-!
# ArrayEquations — positions in an array

A position of an array has one coordinate for each axis, below the axis' extent. The
positions of a shape form a finite box, over which entries are summed.

An operand that is smaller than a result is read at the position that the result's
position *projects* to: along an axis of extent one the coordinate is zero, along any
other it is the coordinate of the result's axis to which the operand's axis belongs.

## Main definitions

* `Position` — the coordinates of an entry; `Shape.box` — the positions of a shape.
* `Position.tabulate` — the position with given coordinates.
* `Shape.project` — the position of an operand under given result axes.
* `Shape.align` — the same with the last axes aligned.
* `Shape.Below` — a shape stretches to another one with the last axes aligned.

## Main results

* `Shape.mem_box` — a position lies in the box iff each coordinate is below its extent.
* `Shape.align_self`, `Shape.align_align` — aligning twice is aligning once.
-/

namespace ArrayEquations

/-- The coordinates of an entry, outermost axis first. -/
abbrev Position := List Nat

namespace Position

/-- The coordinate on an axis; an axis that the position does not have counts as zero. -/
def coord (p : Position) (axis : Nat) : Nat := p.getD axis 0

/-- The position with the coordinates given on the first `n` axes. -/
def tabulate (n : Nat) (f : Nat → Nat) : Position := (List.range n).map f

@[simp] theorem length_tabulate (n : Nat) (f : Nat → Nat) : (tabulate n f).length = n := by
  simp [tabulate]

theorem coord_tabulate {n k : Nat} (f : Nat → Nat) (hk : k < n) :
    (tabulate n f).coord k = f k := by
  simp [coord, tabulate, List.getD, hk]

theorem coord_of_length_le {p : Position} {k : Nat} (hk : p.length ≤ k) : p.coord k = 0 := by
  simp [coord, List.getD, hk]

@[simp] theorem coord_cons_zero (i : Nat) (p : Position) : coord (i :: p) 0 = i := rfl

@[simp] theorem coord_cons_succ (i : Nat) (p : Position) (k : Nat) :
    coord (i :: p) (k + 1) = coord p k := rfl

theorem coord_map {axes : List Nat} (f : Nat → Nat) {k : Nat} (hk : k < axes.length) :
    coord (axes.map f) k = f axes[k] := by
  simp [coord, List.getD, hk]

/-- Positions with the same coordinates are equal. -/
theorem ext {p q : Position} (hLength : p.length = q.length)
    (hCoord : ∀ k < p.length, p.coord k = q.coord k) : p = q := by
  apply List.ext_getElem hLength
  intro k hp hq
  have := hCoord k hp
  simpa [coord, List.getD, hp, hq] using this

/-- A position is the table of its coordinates. -/
theorem tabulate_coord {p : Position} {n : Nat} (hLength : p.length = n) :
    tabulate n p.coord = p := by
  apply ext
  · simp [hLength]
  · intro k hk
    rw [length_tabulate] at hk
    exact coord_tabulate _ hk

end Position

namespace Shape

open Position

/-! ## Extents along axes -/

@[simp] theorem rank_cons (n : Nat) (s : Shape) : rank (n :: s) = s.rank + 1 := rfl

@[simp] theorem extent_cons_zero (n : Nat) (s : Shape) : extent (n :: s) 0 = n := rfl

@[simp] theorem extent_cons_succ (n : Nat) (s : Shape) (k : Nat) :
    extent (n :: s) (k + 1) = s.extent k := rfl

/-- A shape is the list of its extents. -/
theorem map_extent_axes (s : Shape) : s.axes.map s.extent = s := by
  apply List.ext_getElem
  · simp [axes, rank]
  · intro k h₁ h₂
    simp [axes, extent, List.getD, h₂]

theorem extent_map {α : Type*} {axes : List α} {f : α → Nat} {k : Nat}
    (hk : k < axes.length) : extent (axes.map f) k = f axes[k] := by
  simp [extent, List.getD, hk]

/-! ## Boxes -/

/-- The positions of a shape. -/
def box : Shape → Finset Position
  | [] => {[]}
  | n :: s => (Finset.range n ×ˢ box s).map
      ⟨fun x => x.1 :: x.2, fun _ _ h => Prod.ext (List.cons.inj h).1 (List.cons.inj h).2⟩

@[simp] theorem box_nil : box [] = {[]} := rfl

theorem cons_mem_box {n i : Nat} {s : Shape} {p : Position} :
    i :: p ∈ box (n :: s) ↔ i < n ∧ p ∈ s.box := by
  rw [box, Finset.mem_map]
  constructor
  · rintro ⟨⟨j, q⟩, hMem, hEq⟩
    obtain ⟨rfl, rfl⟩ := List.cons.inj hEq
    simpa using hMem
  · intro h
    exact ⟨(i, p), by simpa using h, rfl⟩

/-- Summing over the positions of a shape, outermost axis first. -/
theorem sum_box_cons {R : Type*} [AddCommMonoid R] (n : Nat) (s : Shape)
    (f : Position → R) :
    ∑ p ∈ box (n :: s), f p = ∑ i ∈ Finset.range n, ∑ p ∈ s.box, f (i :: p) := by
  rw [box, Finset.sum_map, Finset.sum_product]
  rfl

theorem mem_box {s : Shape} {p : Position} :
    p ∈ s.box ↔ p.length = s.rank ∧ ∀ k < s.rank, p.coord k < s.extent k := by
  induction s generalizing p with
  | nil => simp [rank]
  | cons n s ih =>
    cases p with
    | nil => simp [box, rank]
    | cons i p =>
      rw [cons_mem_box, ih, List.length_cons, rank_cons]
      constructor
      · rintro ⟨hi, hLength, hCoord⟩
        refine ⟨by omega, ?_⟩
        intro k hk
        cases k with
        | zero => exact hi
        | succ k => exact hCoord k (by omega)
      · rintro ⟨hLength, hCoord⟩
        exact ⟨hCoord 0 (by omega), by omega, fun k hk => hCoord (k + 1) (by omega)⟩

theorem length_of_mem_box {s : Shape} {p : Position} (hp : p ∈ s.box) : p.length = s.rank :=
  (mem_box.mp hp).1

theorem coord_lt {s : Shape} {p : Position} (hp : p ∈ s.box) {k : Nat} (hk : k < s.rank) :
    p.coord k < s.extent k :=
  (mem_box.mp hp).2 k hk

/-- The coordinate on an axis of extent one is zero. -/
theorem coord_eq_zero {s : Shape} {p : Position} (hp : p ∈ s.box) {k : Nat}
    (hExtent : s.extent k = 1) : p.coord k = 0 := by
  by_cases hk : k < s.rank
  · have := coord_lt hp hk
    omega
  · apply coord_of_length_le
    rw [length_of_mem_box hp]
    omega

theorem tabulate_mem_box {s : Shape} {f : Nat → Nat} (hf : ∀ k < s.rank, f k < s.extent k) :
    tabulate s.rank f ∈ s.box := by
  rw [mem_box]
  refine ⟨length_tabulate _ _, ?_⟩
  intro k hk
  rw [coord_tabulate f hk]
  exact hf k hk

/-- The coordinates along a list of axes form a position of the shape that has those axes. -/
theorem map_coord_mem_box {s : Shape} {p : Position} (hp : p ∈ s.box) {axes : List Nat}
    (hAxes : ∀ a ∈ axes, a < s.rank) : axes.map p.coord ∈ box (axes.map s.extent) := by
  rw [mem_box]
  refine ⟨by simp [rank], ?_⟩
  intro k hk
  have hk' : k < axes.length := by simpa [rank] using hk
  rw [extent_map hk', coord_map _ hk']
  exact coord_lt hp (hAxes _ (List.getElem_mem hk'))

/-- Two positions that agree along axes which cover the shape are equal. -/
theorem eq_of_map_coord_eq {s : Shape} {p q : Position} (hp : p ∈ s.box) (hq : q ∈ s.box)
    {axes : List Nat} (hCover : ∀ k < s.rank, k ∈ axes)
    (h : axes.map p.coord = axes.map q.coord) : p = q := by
  apply Position.ext
  · rw [length_of_mem_box hp, length_of_mem_box hq]
  · intro k hk
    rw [length_of_mem_box hp] at hk
    exact List.map_inj_left.mp h k (hCover k hk)

/-! ## Reading a smaller operand -/

/-- The position of an operand whose axis `k` is the result's axis `dims[k]`, for a position of
the result. -/
def project (s : Shape) (dims : List Nat) (p : Position) : Position :=
  tabulate s.rank fun k => if s.extent k = 1 then 0 else p.coord (dims.getD k 0)

/-- The position of an operand whose last axes are those of the result. -/
def align (s : Shape) (p : Position) : Position :=
  tabulate s.rank fun k => if s.extent k = 1 then 0 else p.coord (p.length - s.rank + k)

/-- The shape stretches to the other one when their last axes are aligned. -/
structure Below (s out : Shape) : Prop where
  rank_le : s.rank ≤ out.rank
  extent : ∀ k < s.rank, s.extent k = 1 ∨ s.extent k = out.extent (out.rank - s.rank + k)

theorem Below.refl (s : Shape) : s.Below s := by
  refine ⟨Nat.le_refl _, ?_⟩
  intro k _
  right
  simp

theorem Below.trans {s t out : Shape} (h₁ : s.Below t) (h₂ : t.Below out) : s.Below out := by
  have hRank₁ := h₁.rank_le
  have hRank₂ := h₂.rank_le
  refine ⟨by omega, ?_⟩
  intro k hk
  rcases h₁.extent k hk with h | h
  · exact Or.inl h
  · rcases h₂.extent (t.rank - s.rank + k) (by omega) with h' | h'
    · exact Or.inl (h.trans h')
    · right
      rw [h, h']
      congr 1
      omega

/-- The scalar shape stretches to every shape. -/
theorem Below.nil (out : Shape) : Below [] out :=
  ⟨Nat.zero_le _, fun _ hk => absurd hk (Nat.not_lt_zero _)⟩

theorem Below.cons_right {s t : Shape} (h : s.Below t) (n : Nat) : s.Below (n :: t) := by
  have hRank := h.rank_le
  refine ⟨by rw [rank_cons]; omega, ?_⟩
  intro k hk
  rw [rank_cons, show t.rank + 1 - s.rank + k = t.rank - s.rank + k + 1 by omega,
    extent_cons_succ]
  exact h.extent k hk

theorem Below.cons {s t : Shape} (h : s.Below t) {m n : Nat}
    (hFirst : m = 1 ∨ m = n ∧ s.rank = t.rank) : Below (m :: s) (n :: t) := by
  have hRank := h.rank_le
  refine ⟨by rw [rank_cons, rank_cons]; omega, ?_⟩
  intro k hk
  rw [rank_cons, rank_cons, Nat.add_sub_add_right]
  cases k with
  | zero =>
    rcases hFirst with rfl | ⟨rfl, hSame⟩
    · exact Or.inl rfl
    · rw [hSame, Nat.sub_self]
      exact Or.inr rfl
  | succ k =>
    rw [rank_cons] at hk
    rw [← Nat.add_assoc, extent_cons_succ, extent_cons_succ]
    exact h.extent k (by omega)

/-- A shape that stretches to one with another axis in front has that axis or not. -/
theorem Below.cons_cases {s t : Shape} {n : Nat} (h : s.Below (n :: t)) :
    s.Below t ∨ ∃ (m : Nat) (s' : Shape),
      s = m :: s' ∧ s'.rank = t.rank ∧ (m = 1 ∨ m = n) ∧ s'.Below t := by
  have hRank := h.rank_le
  rw [rank_cons] at hRank
  -- Either the first axis of the larger shape has no partner, or the ranks are the same.
  rcases Nat.lt_or_eq_of_le hRank with hLt | hEq
  · left
    refine ⟨by omega, ?_⟩
    intro k hk
    have hExtent := h.extent k hk
    rwa [rank_cons, show t.rank + 1 - s.rank + k = t.rank - s.rank + k + 1 by omega,
      extent_cons_succ] at hExtent
  · right
    cases s with
    | nil => exact absurd hEq (by simp [rank])
    | cons m s' =>
      replace hEq : Shape.rank s' = t.rank := Nat.add_right_cancel hEq
      have hExtent : ∀ k < Shape.rank s' + 1, Shape.extent (m :: s') k = 1 ∨
          Shape.extent (m :: s') k = Shape.extent (n :: t) k := by
        intro k hk
        have := h.extent k hk
        rwa [rank_cons, rank_cons, hEq, Nat.sub_self, Nat.zero_add] at this
      refine ⟨m, s', rfl, hEq, hExtent 0 (Nat.succ_pos _), ⟨hEq.le, ?_⟩⟩
      intro k hk
      rw [hEq, Nat.sub_self, Nat.zero_add]
      exact hExtent (k + 1) (by omega)

@[simp] theorem length_align (s : Shape) (p : Position) : (s.align p).length = s.rank := by
  simp [align]

theorem coord_align {s : Shape} {p : Position} {k : Nat} (hk : k < s.rank) :
    (s.align p).coord k =
      if s.extent k = 1 then 0 else p.coord (p.length - s.rank + k) := by
  rw [align, coord_tabulate _ hk]

@[simp] theorem align_nil (p : Position) : align [] p = [] := rfl

theorem align_mem_box {s out : Shape} {p : Position} (h : s.Below out) (hp : p ∈ out.box) :
    s.align p ∈ s.box := by
  apply tabulate_mem_box
  intro k hk
  have hRank := h.rank_le
  split
  · omega
  · rename_i hExtent
    rw [length_of_mem_box hp, (h.extent k hk).resolve_left hExtent]
    exact coord_lt hp (by omega)

/-- A position of the shape itself is aligned already. -/
theorem align_self {s : Shape} {p : Position} (hp : p ∈ s.box) : s.align p = p := by
  apply Position.ext
  · rw [length_align, length_of_mem_box hp]
  · intro k hk
    rw [length_align] at hk
    rw [coord_align hk, length_of_mem_box hp]
    split
    · rename_i hExtent
      rw [coord_eq_zero hp hExtent]
    · simp

/-- Aligning through a shape in between changes nothing. -/
theorem align_align {s t out : Shape} {p : Position} (h₁ : s.Below t) (h₂ : t.Below out)
    (hp : p ∈ out.box) : s.align (t.align p) = s.align p := by
  have hRank₁ := h₁.rank_le
  have hRank₂ := h₂.rank_le
  apply Position.ext
  · simp
  · intro k hk
    rw [length_align] at hk
    rw [coord_align hk, coord_align hk]
    split
    · rfl
    · rename_i hExtent
      have hInner : t.extent (t.rank - s.rank + k) ≠ 1 := by
        rw [← (h₁.extent k hk).resolve_left hExtent]
        exact hExtent
      rw [length_align, coord_align (by omega), if_neg hInner, length_of_mem_box hp]
      congr 1
      omega

theorem getD_trailingDims {rank outRank k : Nat} (hk : k < rank) :
    (trailingDims rank outRank).getD k 0 = outRank - rank + k := by
  simp [trailingDims, List.getD, hk]

/-- Aligning the last axes is projecting along the trailing axes of the result. -/
theorem project_trailingDims (s : Shape) (p : Position) :
    s.project (trailingDims s.rank p.length) p = s.align p := by
  apply Position.ext
  · simp [project]
  · intro k hk
    have hk' : k < s.rank := by simpa [project] using hk
    rw [project, coord_tabulate _ hk', coord_align hk', getD_trailingDims hk']

end Shape

end ArrayEquations
