import ArrayEquations.Proofs.Position
import Mathlib.Algebra.BigOperators.Group.List.Basic

/-!
# ArrayEquations — row-major order

The entries of an array are numbered so that the last coordinate runs fastest. A reshape
keeps these numbers. Axes of extent one do not count: whether they are there or not, an
entry has the same number.

## Main results

* `Shape.ofRowMajor_rowMajor`, `Shape.rowMajor_ofRowMajor` — positions and numbers below
  the size correspond.
* `Shape.rowMajor_filter` — dropping axes of extent one keeps the number.
-/

namespace ArrayEquations

namespace Shape

open Position

/-- The number of the entry at a position, the last coordinate running fastest. -/
def rowMajor : Shape → Position → Nat
  | _ :: s, i :: p => i * size s + rowMajor s p
  | _, _ => 0

/-- The position of the entry with a number. -/
def ofRowMajor : Shape → Nat → Position
  | [], _ => []
  | _ :: s, k => k / size s :: ofRowMajor s (k % size s)

/-- The position of the entry under a shape that it has at a position under another one. -/
def reshaped (s out : Shape) (p : Position) : Position := s.ofRowMajor (out.rowMajor p)

@[simp] theorem size_nil : size [] = 1 := rfl

theorem size_cons (n : Nat) (s : Shape) : size (n :: s) = n * s.size := by
  rw [size, size, ← List.prod_eq_foldl, ← List.prod_eq_foldl, List.prod_cons]

theorem rowMajor_lt_size {s : Shape} {p : Position} (hp : p ∈ s.box) :
    s.rowMajor p < s.size := by
  induction s generalizing p with
  | nil => simp [rowMajor]
  | cons n s ih =>
    cases p with
    | nil => simp [box] at hp
    | cons i p =>
      obtain ⟨hi, hp⟩ := cons_mem_box.mp hp
      rw [rowMajor, size_cons]
      calc i * size s + rowMajor s p < i * size s + size s := by
            have := ih hp
            omega
        _ = (i + 1) * size s := by rw [Nat.add_mul, Nat.one_mul]
        _ ≤ n * size s := Nat.mul_le_mul_right _ hi

theorem ofRowMajor_mem_box {s : Shape} {k : Nat} (hk : k < s.size) :
    s.ofRowMajor k ∈ s.box := by
  induction s generalizing k with
  | nil => simp [ofRowMajor]
  | cons n s ih =>
    rw [size_cons] at hk
    have hPos : 0 < size s := by
      rcases Nat.eq_zero_or_pos (size s) with h | h
      · rw [h] at hk
        omega
      · exact h
    rw [ofRowMajor, cons_mem_box]
    exact ⟨Nat.div_lt_of_lt_mul (by rwa [Nat.mul_comm] at hk), ih (Nat.mod_lt _ hPos)⟩

theorem ofRowMajor_rowMajor {s : Shape} {p : Position} (hp : p ∈ s.box) :
    s.ofRowMajor (s.rowMajor p) = p := by
  induction s generalizing p with
  | nil =>
    rw [box_nil, Finset.mem_singleton] at hp
    rw [hp, ofRowMajor]
  | cons n s ih =>
    cases p with
    | nil => simp [box] at hp
    | cons i p =>
      obtain ⟨-, hp⟩ := cons_mem_box.mp hp
      have hlt := rowMajor_lt_size hp
      rw [rowMajor, ofRowMajor, Nat.mul_comm, Nat.mul_add_div (by omega),
        Nat.mul_add_mod, Nat.div_eq_of_lt hlt, Nat.mod_eq_of_lt hlt, ih hp, Nat.add_zero]

theorem rowMajor_ofRowMajor {s : Shape} {k : Nat} (hk : k < s.size) :
    s.rowMajor (s.ofRowMajor k) = k := by
  induction s generalizing k with
  | nil =>
    rw [size_nil] at hk
    rw [ofRowMajor, rowMajor]
    · omega
    · simp
  | cons n s ih =>
    rw [size_cons] at hk
    have hPos : 0 < size s := by
      rcases Nat.eq_zero_or_pos (size s) with h | h
      · rw [h] at hk
        omega
      · exact h
    rw [ofRowMajor, rowMajor, ih (Nat.mod_lt _ hPos), Nat.mul_comm]
    exact Nat.div_add_mod k (size s)

theorem reshaped_mem_box {s out : Shape} (hSize : s.size = out.size) {p : Position}
    (hp : p ∈ out.box) : s.reshaped out p ∈ s.box :=
  ofRowMajor_mem_box (hSize ▸ rowMajor_lt_size hp)

/-- A position is the reshaped one as soon as the numbers agree. -/
theorem eq_reshaped_iff {s out : Shape} (hSize : s.size = out.size) {p q : Position}
    (hp : p ∈ out.box) (hq : q ∈ s.box) :
    q = s.reshaped out p ↔ s.rowMajor q = out.rowMajor p := by
  constructor
  · rintro rfl
    exact rowMajor_ofRowMajor (hSize ▸ rowMajor_lt_size hp)
  · intro h
    rw [reshaped, ← h, ofRowMajor_rowMajor hq]

/-! ## Axes of extent one -/

/-- Dropping axes of extent one from a list of axes changes no number. -/
theorem rowMajor_filter {s : Shape} {p : Position} {axes : List Nat} {keep : Nat → Bool}
    (hDrop : ∀ a ∈ axes, keep a = false → s.extent a = 1 ∧ p.coord a = 0) :
    size ((axes.filter keep).map s.extent) = size (axes.map s.extent) ∧
      rowMajor ((axes.filter keep).map s.extent) ((axes.filter keep).map p.coord) =
        rowMajor (axes.map s.extent) (axes.map p.coord) := by
  induction axes with
  | nil => exact ⟨rfl, rfl⟩
  | cons a axes ih =>
    obtain ⟨hSize, hNumber⟩ := ih fun b hb => hDrop b (List.mem_cons_of_mem _ hb)
    by_cases hKeep : keep a = true
    · rw [List.filter_cons_of_pos hKeep]
      simp only [List.map_cons, size_cons, rowMajor, hSize, hNumber, and_self]
    · obtain ⟨hExtent, hCoord⟩ := hDrop a List.mem_cons_self (by simpa using hKeep)
      rw [List.filter_cons_of_neg hKeep]
      simp only [List.map_cons, size_cons, rowMajor, hSize, hNumber, hExtent, hCoord]
      omega

/-- An array's own axes without some of extent one give every entry its number. -/
theorem rowMajor_filter_axes {s : Shape} {p : Position} (hp : p ∈ s.box)
    {keep : Nat → Bool} (hDrop : ∀ a < s.rank, keep a = false → s.extent a = 1) :
    size ((s.axes.filter keep).map s.extent) = s.size ∧
      rowMajor ((s.axes.filter keep).map s.extent) ((s.axes.filter keep).map p.coord) =
        s.rowMajor p := by
  have hAxes : ∀ a ∈ s.axes, keep a = false → s.extent a = 1 ∧ p.coord a = 0 := by
    intro a ha hKeep
    have hExtent := hDrop a (List.mem_range.mp ha) hKeep
    exact ⟨hExtent, coord_eq_zero hp hExtent⟩
  have h := rowMajor_filter hAxes
  have hCoords : s.axes.map p.coord = p := tabulate_coord (length_of_mem_box hp)
  rwa [map_extent_axes, hCoords] at h

theorem size_filter_axes {s : Shape} {keep : Nat → Bool}
    (hDrop : ∀ a < s.rank, keep a = false → s.extent a = 1) :
    size ((s.axes.filter keep).map s.extent) = s.size := by
  -- Sizes do not depend on a position, so any one will do.
  have h := @rowMajor_filter s [] s.axes keep fun a ha hKeep =>
    ⟨hDrop a (List.mem_range.mp ha) hKeep, rfl⟩
  rw [h.1, map_extent_axes]

/-- The position with the coordinates given on the axes of extent other than one. -/
def spread : Shape → List Nat → Position
  | [], _ => []
  | n :: s, given =>
    if n = 1 then 0 :: spread s given else given.headD 0 :: spread s given.tail

/-- The coordinates on the axes of extent other than one. -/
def squeeze : Shape → Position → List Nat
  | n :: s, i :: p => if n = 1 then squeeze s p else i :: squeeze s p
  | _, _ => []

theorem nonSingleton_one_cons (s : Shape) : nonSingleton (1 :: s) = s.nonSingleton := rfl

theorem nonSingleton_cons {n : Nat} (hn : n ≠ 1) (s : Shape) :
    nonSingleton (n :: s) = n :: s.nonSingleton :=
  List.filter_cons_of_pos (by simpa using hn)

theorem squeeze_mem_box {s : Shape} {p : Position} (hp : p ∈ s.box) :
    s.squeeze p ∈ box s.nonSingleton := by
  induction s generalizing p with
  | nil => simp [squeeze, nonSingleton]
  | cons n s ih =>
    cases p with
    | nil => simp [box] at hp
    | cons i p =>
      obtain ⟨hi, hRest⟩ := cons_mem_box.mp hp
      rw [squeeze]
      by_cases hn : n = 1
      · subst hn
        rw [if_pos rfl, nonSingleton_one_cons]
        exact ih hRest
      · rw [if_neg hn, nonSingleton_cons hn, cons_mem_box]
        exact ⟨hi, ih hRest⟩

theorem spread_mem_box {s : Shape} {c : List Nat} (hc : c ∈ box s.nonSingleton) :
    s.spread c ∈ s.box := by
  induction s generalizing c with
  | nil => simp [spread]
  | cons n s ih =>
    rw [spread]
    by_cases hn : n = 1
    · subst hn
      rw [nonSingleton_one_cons] at hc
      rw [if_pos rfl, cons_mem_box]
      exact ⟨Nat.one_pos, ih hc⟩
    · rw [nonSingleton_cons hn] at hc
      cases c with
      | nil => simp [box] at hc
      | cons i c =>
        obtain ⟨hi, hRest⟩ := cons_mem_box.mp hc
        rw [if_neg hn, cons_mem_box]
        exact ⟨hi, ih hRest⟩

theorem spread_squeeze {s : Shape} {p : Position} (hp : p ∈ s.box) :
    s.spread (s.squeeze p) = p := by
  induction s generalizing p with
  | nil =>
    rw [box_nil, Finset.mem_singleton] at hp
    rw [hp, spread]
  | cons n s ih =>
    cases p with
    | nil => simp [box] at hp
    | cons i p =>
      obtain ⟨hi, hRest⟩ := cons_mem_box.mp hp
      rw [squeeze, spread]
      by_cases hn : n = 1
      · have hZero : i = 0 := by omega
        rw [if_pos hn, if_pos hn, ih hRest, hZero]
      · rw [if_neg hn, if_neg hn, List.headD_cons, List.tail_cons, ih hRest]

theorem size_nonSingleton (s : Shape) : size s.nonSingleton = s.size := by
  induction s with
  | nil => rfl
  | cons n s ih =>
    by_cases hn : n = 1
    · subst hn
      rw [nonSingleton_one_cons, ih, size_cons, Nat.one_mul]
    · rw [nonSingleton_cons hn, size_cons, size_cons, ih]

/-- Axes of extent one may be left out. -/
theorem nonSingleton_filter_axes {s : Shape} {keep : Nat → Bool}
    (hDrop : ∀ a < s.rank, keep a = false → s.extent a = 1) :
    nonSingleton ((s.axes.filter keep).map s.extent) = s.nonSingleton := by
  have hAll : s.nonSingleton = nonSingleton (s.axes.map s.extent) := by rw [map_extent_axes]
  rw [hAll, nonSingleton, nonSingleton, List.filter_map, List.filter_map, List.filter_filter]
  congr 1
  apply List.filter_congr
  intro a ha
  cases hKeep : keep a with
  | true => rw [Bool.and_true]
  | false =>
    rw [Bool.and_false, Function.comp_apply, hDrop a (List.mem_range.mp ha) hKeep]
    rfl

/-- A shape with one entry has no other extents. -/
theorem nonSingleton_of_size_eq_one {s : Shape} (h : s.size = 1) : s.nonSingleton = [] := by
  induction s with
  | nil => rfl
  | cons n s ih =>
    rw [size_cons] at h
    obtain rfl := Nat.eq_one_of_mul_eq_one_right h
    rw [nonSingleton_one_cons]
    exact ih (by rwa [Nat.one_mul] at h)

/-- Axes of extent one do not count in the number of an entry. -/
theorem rowMajor_spread {s : Shape} {c : List Nat} (hc : c ∈ box s.nonSingleton) :
    s.rowMajor (s.spread c) = rowMajor s.nonSingleton c := by
  induction s generalizing c with
  | nil =>
    rw [show nonSingleton [] = [] from rfl, box_nil, Finset.mem_singleton] at hc
    rw [hc]
    rfl
  | cons n s ih =>
    rw [spread]
    by_cases hn : n = 1
    · subst hn
      -- An axis of extent one adds a coordinate of zero and leaves the number as it is.
      rw [nonSingleton_one_cons] at hc ⊢
      rw [if_pos rfl, rowMajor, ih hc, Nat.zero_mul, Nat.zero_add]
    · rw [nonSingleton_cons hn] at hc ⊢
      cases c with
      | nil => simp [box] at hc
      | cons i c =>
        obtain ⟨-, hc⟩ := cons_mem_box.mp hc
        rw [if_neg hn, List.headD_cons, List.tail_cons, rowMajor, rowMajor, ih hc,
          size_nonSingleton]

/-- A reshape that only inserts or drops axes of extent one keeps the other coordinates. -/
theorem reshaped_eq_spread_squeeze {s out : Shape} (hSame : s.nonSingleton = out.nonSingleton)
    {p : Position} (hp : p ∈ out.box) : s.reshaped out p = s.spread (out.squeeze p) := by
  have hSize : s.size = out.size := by
    rw [← size_nonSingleton s, hSame, size_nonSingleton]
  have hOut := squeeze_mem_box hp
  have hIn : out.squeeze p ∈ box s.nonSingleton := hSame ▸ hOut
  symm
  rw [eq_reshaped_iff hSize hp (spread_mem_box hIn), rowMajor_spread hIn, hSame,
    ← rowMajor_spread hOut, spread_squeeze hp]

end Shape

end ArrayEquations
