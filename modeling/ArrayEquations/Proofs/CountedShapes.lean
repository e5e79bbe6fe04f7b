import ArrayEquations.Decimal.Numeral
import ArrayEquations.Proofs.Permutation
import ArrayEquations.Proofs.StretchedAxes

/-!
# ArrayEquations — numbers of entries that fit a word

The number of entries of a shape is a product of natural numbers. Where it is multiplied up in
words of 64 bits, a product may not fit, and two shapes may then seem to have as many entries as
each other. So what is shown about reshaping holds of a program that counts in words as long as
every product fits.

A shape that is countable in this way stays countable when axes are left out or rearranged, or
have extent one. An axis of extent zero takes no part in this: it makes the product zero, but
leaving it out may bring back one that does not fit.

## Main definitions

* `Shape.count?` — the number of entries, multiplied up in words.
* `Shape.bulk`, `Shape.Countable` — the largest product of extents, and shapes for which it fits.

## Main results

* `Shape.Countable.count?_eq` — counting in words is exact for countable shapes.
* `Shape.bulk_le_of_below`, `Shape.bulk_without_le`, `Shape.bulk_map_extent` — shapes that come from
  others by leaving out or rearranging axes.
-/

namespace ArrayEquations

namespace Shape

/-- The number of entries, with the extents multiplied up in words of 64 bits in their order; none
if a product does not fit. -/
def count? (s : Shape) : Option Nat :=
  s.foldlM (fun n extent => if n * extent < wordBound then some (n * extent) else none) 1

/-- The largest product of extents: an extent of zero is left out. -/
def bulk (s : Shape) : Nat := (s.map (max 1)).prod

/-- All products of extents fit a word. -/
def Countable (s : Shape) : Prop := s.bulk < wordBound

instance (s : Shape) : Decidable s.Countable := inferInstanceAs (Decidable (s.bulk < wordBound))

variable {s t : Shape}

@[simp] theorem bulk_cons (n : Nat) (s : Shape) : bulk (n :: s) = max 1 n * s.bulk := by
  simp [bulk]

theorem one_le_bulk (s : Shape) : 1 ≤ s.bulk := by
  induction s with
  | nil => exact Nat.le_refl 1
  | cons n s ih =>
    rw [bulk_cons]
    exact Nat.mul_le_mul (Nat.le_max_left 1 n) ih

/-- Counting goes on from the product of the extents in front. -/
private theorem foldlM_count {n : Nat} (h : n * s.bulk < wordBound) :
    s.foldlM (fun n extent => if n * extent < wordBound then some (n * extent) else none) n =
      some (n * s.size) := by
  induction s generalizing n with
  | nil => simp [size]
  | cons extent s ih =>
    rw [bulk_cons, ← Nat.mul_assoc] at h
    -- The product with this extent is one of those that the bulk bounds.
    have hLe : n * extent * bulk s ≤ n * max 1 extent * bulk s :=
      Nat.mul_le_mul_right _ (Nat.mul_le_mul_left n (Nat.le_max_right 1 extent))
    have hNext : n * extent < wordBound :=
      Nat.lt_of_le_of_lt (Nat.le_mul_of_pos_right _ (one_le_bulk s)) (Nat.lt_of_le_of_lt hLe h)
    rw [List.foldlM_cons, if_pos hNext]
    show s.foldlM _ (n * extent) = _
    rw [ih (Nat.lt_of_le_of_lt hLe h), size_cons, Nat.mul_assoc]

/-- **A countable shape is counted exactly.** -/
theorem Countable.count?_eq (h : s.Countable) : s.count? = some s.size := by
  have hCount := foldlM_count (n := 1) (by rwa [Nat.one_mul])
  rwa [Nat.one_mul] at hCount

theorem Countable.of_le (h : t.Countable) (hLe : s.bulk ≤ t.bulk) : s.Countable :=
  Nat.lt_of_le_of_lt hLe h

theorem countable_nil : Countable [] := by decide

/-- A shape that stretches to another one has no larger product. -/
theorem bulk_le_of_below (h : s.Below t) : s.bulk ≤ t.bulk := by
  induction t generalizing s with
  | nil =>
    obtain rfl : s = [] := List.length_eq_zero_iff.mp (Nat.le_zero.mp h.rank_le)
    exact Nat.le_refl _
  | cons n t ih =>
    rw [bulk_cons]
    -- The smaller shape has no axis here, or one that is as long or has extent one.
    rcases h.cons_cases with h | ⟨m, s, rfl, -, hFirst, h⟩
    · exact Nat.le_trans (ih h) (Nat.le_mul_of_pos_left _ (Nat.le_max_left 1 n))
    · rw [bulk_cons]
      apply Nat.mul_le_mul ?_ (ih h)
      rcases hFirst with rfl | rfl
      · exact Nat.le_max_left 1 n
      · exact Nat.le_refl _

private theorem bulk_le_of_sublist (h : s.Sublist t) : s.bulk ≤ t.bulk := by
  induction h with
  | slnil => exact Nat.le_refl _
  | cons n _ ih =>
    rw [bulk_cons]
    exact Nat.le_trans ih (Nat.le_mul_of_pos_left _ (Nat.le_max_left 1 n))
  | cons_cons n _ ih =>
    rw [bulk_cons, bulk_cons]
    exact Nat.mul_le_mul_left _ ih

/-- Axes may be left out. -/
theorem bulk_without_le (s : Shape) (axes : List Nat) : (s.without axes).bulk ≤ s.bulk := by
  have hSublist : (s.without axes).Sublist (s.axes.map s.extent) := List.filter_sublist.map _
  rw [map_extent_axes] at hSublist
  exact bulk_le_of_sublist hSublist

/-- Axes may be rearranged. -/
theorem bulk_map_extent {order : List Nat} (h : IsPermutation order)
    (hLength : order.length = s.rank) : bulk (order.map s.extent) = s.bulk := by
  have hPerm : (order.map s.extent).Perm (s.axes.map s.extent) := by
    rw [axes, ← hLength]
    exact h.perm_range.map s.extent
  rw [map_extent_axes] at hPerm
  exact (hPerm.map _).prod_eq

end Shape

end ArrayEquations
