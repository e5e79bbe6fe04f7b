import ArrayEquations.Proofs.Extension
import ArrayEquations.Proofs.ImportedTrace
import ArrayEquations.Proofs.InheritedProperties
import ArrayEquations.Proofs.StretchedAxes

/-!
# ArrayEquations — undoing a stretch on both sides

A product with the seed of a gradient is not recorded, and what remains of it is the other
factor. That factor may be smaller than the product along some axes while the operand is
smaller along others. So the contribution is stretched along the first and summed over the
second, without an array of the common shape ever being there.

Both are done in one go through the shape that the two have in common: the contribution is
summed down to it, and what is left stretches to the operand. Counted from the end, all three
shapes agree along every axis where they are not one.

An axis that is summed is gone, however, and the axes before it move up. If something is
stretched after all, they no longer stand where the operand has them.

## Main definitions

* `Position.trailing` — a coordinate counted from the end.
* `Shape.shared` — what two shapes have in common.
* `Shape.StaysAligned` — no axis moves that would still have to be stretched.

## Main results

* `Shape.sum_align_align` — the positions of the common shape that read an entry of one operand
  are the positions of the other one that agree with it on what both share.
* `Reverse.unbroadcast_transposes` — what a contribution becomes, for shapes that stay aligned.
* `Reverse.unbroadcast_misaligned` — what it becomes for others.
-/

namespace ArrayEquations

/-! ## Coordinates counted from the end -/

namespace Position

/-- A coordinate counted from the end; an axis that the position does not have counts as
zero. -/
def trailing (p : Position) (k : Nat) : Nat := p.reverse.getD k 0

theorem trailing_eq_coord {p : Position} {k : Nat} (hk : k < p.length) :
    p.trailing k = p.coord (p.length - 1 - k) := by
  simp [trailing, coord, List.getD, List.getElem?_reverse hk]

theorem trailing_of_length_le {p : Position} {k : Nat} (hk : p.length ≤ k) :
    p.trailing k = 0 := by
  simp [trailing, List.getD, hk]

theorem ext_trailing {p q : Position} (hLength : p.length = q.length)
    (h : ∀ k, p.trailing k = q.trailing k) : p = q := by
  apply Position.ext hLength
  intro k hk
  have hEnd := h (p.length - 1 - k)
  rw [trailing_eq_coord (by omega), trailing_eq_coord (by omega), ← hLength] at hEnd
  rwa [show p.length - 1 - (p.length - 1 - k) = k by omega] at hEnd

/-- The position with the coordinates given on the last `n` axes, counted from the end. -/
def fromEnd (n : Nat) (f : Nat → Nat) : Position := ((List.range n).map f).reverse

@[simp] theorem length_fromEnd (n : Nat) (f : Nat → Nat) : (fromEnd n f).length = n := by
  simp [fromEnd]

theorem trailing_fromEnd {n k : Nat} (f : Nat → Nat) (hk : k < n) :
    (fromEnd n f).trailing k = f k := by
  simp [trailing, fromEnd, List.getD, hk]

end Position

namespace Shape

open Position

theorem extent_eq_trailing {s : Shape} {k : Nat} (hk : k < s.rank) :
    s.extent k = s.trailing (s.rank - 1 - k) := by
  rw [trailing_eq_extent (by omega)]
  congr 1
  omega

theorem mem_box_iff_trailing {s : Shape} {p : Position} :
    p ∈ s.box ↔ p.length = s.rank ∧ ∀ k < s.rank, p.trailing k < s.trailing k := by
  rw [mem_box]
  constructor
  · rintro ⟨hLength, hCoord⟩
    refine ⟨hLength, ?_⟩
    intro k hk
    rw [trailing_eq_coord (by omega), trailing_eq_extent hk, hLength]
    exact hCoord _ (by omega)
  · rintro ⟨hLength, hTrailing⟩
    refine ⟨hLength, ?_⟩
    intro k hk
    have h := hTrailing (s.rank - 1 - k) (by omega)
    rw [trailing_eq_coord (by omega), trailing_eq_extent (by omega), hLength] at h
    rwa [show s.rank - 1 - (s.rank - 1 - k) = k by omega] at h

theorem trailing_lt {s : Shape} {p : Position} (hp : p ∈ s.box) (k : Nat) :
    p.trailing k < s.trailing k := by
  obtain ⟨hLength, hTrailing⟩ := mem_box_iff_trailing.mp hp
  by_cases hk : k < s.rank
  · exact hTrailing k hk
  · rw [Position.trailing_of_length_le (by omega), trailing_of_rank_le (by omega)]
    exact Nat.one_pos

theorem trailing_eq_zero {s : Shape} {p : Position} (hp : p ∈ s.box) {k : Nat}
    (hOne : s.trailing k = 1) : p.trailing k = 0 := by
  have := trailing_lt hp k
  omega

/-- An operand is read at the result's coordinates, but for axes of extent one. -/
theorem trailing_align {s : Shape} {p : Position} (hRank : s.rank ≤ p.length) (k : Nat) :
    (s.align p).trailing k = if s.trailing k = 1 then 0 else p.trailing k := by
  by_cases hk : k < s.rank
  · rw [trailing_eq_coord (by simpa using hk), length_align, coord_align (by omega),
      ← trailing_eq_extent hk, trailing_eq_coord (by omega)]
    congr 2
    omega
  · rw [Position.trailing_of_length_le (by simpa using Nat.le_of_not_lt hk),
      if_pos (trailing_of_rank_le (Nat.le_of_not_lt hk))]

/-! ## What two shapes share -/

/-- The last axes that both shapes have, with the extents of the first one, but for axes where
the second one has extent one. -/
def shared (s t : Shape) : Shape :=
  (List.zipWith (fun x y => if y = 1 then 1 else x) s.reverse t.reverse).reverse

variable {s t out : Shape}

@[simp] theorem rank_shared (s t : Shape) : (s.shared t).rank = min s.rank t.rank := by
  simp [shared, rank]

theorem trailing_shared (s t : Shape) (k : Nat) :
    (s.shared t).trailing k = if t.trailing k = 1 then 1 else s.trailing k := by
  by_cases hk : k < min s.rank t.rank
  · have hs : k < s.reverse.length := by
      simp only [List.length_reverse, rank] at hk ⊢
      omega
    have ht : k < t.reverse.length := by
      simp only [List.length_reverse, rank] at hk ⊢
      omega
    simp only [shared, trailing, List.reverse_reverse, List.getD, List.getElem?_zipWith,
      List.getElem?_eq_getElem hs, List.getElem?_eq_getElem ht, Option.getD_some]
  · rw [trailing_of_rank_le (by rw [rank_shared]; omega)]
    -- An axis that one of the shapes lacks has extent one in it.
    by_cases ht : t.rank ≤ k
    · rw [if_pos (trailing_of_rank_le ht)]
    · rw [trailing_of_rank_le (by omega : s.rank ≤ k), ite_self]

theorem shared_below_left (s t : Shape) : (s.shared t).Below s := by
  rw [below_iff_trailing, rank_shared]
  refine ⟨Nat.min_le_left _ _, ?_⟩
  intro k
  rw [trailing_shared]
  split
  · exact Or.inl rfl
  · exact Or.inr rfl

/-- Where shapes have a common one, extents other than one are equal. -/
theorem trailing_eq_of_broadcast (h : s.broadcast t = .ok out) {k : Nat}
    (hs : s.trailing k ≠ 1) (ht : t.trailing k ≠ 1) : s.trailing k = t.trailing k := by
  obtain ⟨hs', ht', -⟩ := commonExtent?_eq_some ((broadcast_eq_ok.mp h).2 k)
  rw [hs'.resolve_left hs, ht'.resolve_left ht]

theorem shared_below_right (h : s.broadcast t = .ok out) : (s.shared t).Below t := by
  rw [below_iff_trailing, rank_shared]
  refine ⟨Nat.min_le_right _ _, ?_⟩
  intro k
  rw [trailing_shared]
  split
  · exact Or.inl rfl
  · rename_i ht
    by_cases hs : s.trailing k = 1
    · exact Or.inl hs
    · exact Or.inr (trailing_eq_of_broadcast h hs ht)

/-! ## The positions that read an entry -/

/-- The position of the common shape at which the first operand is read at `p` and the second
one at `q`. -/
private def merge (s : Shape) (n : Nat) (p q : Position) : Position :=
  fromEnd n fun k => if s.trailing k = 1 then q.trailing k else p.trailing k

private theorem trailing_merge {n : Nat} {p q : Position} (hp : p ∈ s.box) (hq : q ∈ t.box)
    (hRank : n = max s.rank t.rank) (k : Nat) :
    (merge s n p q).trailing k =
      if s.trailing k = 1 then q.trailing k else p.trailing k := by
  by_cases hk : k < n
  · exact trailing_fromEnd _ hk
  · have hLp := length_of_mem_box hp
    have hLq := length_of_mem_box hq
    rw [Position.trailing_of_length_le (by simpa [merge] using hk),
      Position.trailing_of_length_le (by omega), Position.trailing_of_length_le (by omega),
      ite_self]

/-- Two positions that agree on what the shapes share are read at one position of the common
shape. -/
private theorem merge_spec (h : s.broadcast t = .ok out) {p q : Position} (hp : p ∈ s.box)
    (hq : q ∈ t.box) (hAgree : (s.shared t).align p = (s.shared t).align q) :
    merge s out.rank p q ∈ out.box ∧ s.align (merge s out.rank p q) = p ∧
      t.align (merge s out.rank p q) = q := by
  obtain ⟨hRank, hExtent⟩ := broadcast_eq_ok.mp h
  have hLp := length_of_mem_box hp
  have hLq := length_of_mem_box hq
  have hLm : (merge s out.rank p q).length = out.rank := length_fromEnd _ _
  have hTrailing := trailing_merge hp hq hRank
  refine ⟨?_, ?_, ?_⟩
  · -- a coordinate comes from the operand that has the common extent
    rw [mem_box_iff_trailing]
    refine ⟨hLm, ?_⟩
    intro k _
    have hk := hExtent k
    rw [hTrailing]
    split
    · rename_i hOne
      rw [hOne, commonExtent?_one_left] at hk
      rw [← Option.some.inj hk]
      exact trailing_lt hq k
    · rename_i hOne
      rw [← (commonExtent?_eq_some hk).1.resolve_left hOne]
      exact trailing_lt hp k
  · -- the first operand is read at `p`
    apply ext_trailing (by rw [length_align, hLp])
    intro k
    rw [trailing_align (by omega), hTrailing]
    split
    · rename_i hOne
      exact (trailing_eq_zero hp hOne).symm
    · rfl
  · -- the second operand is read at `q`
    apply ext_trailing (by rw [length_align, hLq])
    intro k
    rw [trailing_align (by omega), hTrailing]
    split
    · rename_i hOne
      exact (trailing_eq_zero hq hOne).symm
    · rename_i ht
      split
      · rfl
      · rename_i hs
        -- Neither extent is one, so the axis is shared and the positions agree along it.
        have hk : ((s.shared t).align p).trailing k = ((s.shared t).align q).trailing k := by
          rw [hAgree]
        rw [trailing_align (by rw [rank_shared]; omega),
          trailing_align (by rw [rank_shared]; omega), trailing_shared, if_neg ht, if_neg hs,
          if_neg hs] at hk
        exact hk

/-- **The positions of the common shape that read an entry of one operand are the positions of
the other one that agree with it on what both share.** -/
theorem sum_align_align {R : Type*} [AddCommMonoid R] (h : s.broadcast t = .ok out)
    {q : Position} (hq : q ∈ t.box) (f : Position → R) :
    ∑ p ∈ out.box with t.align p = q, f (s.align p) =
      ∑ p ∈ s.box with (s.shared t).align p = (s.shared t).align q, f p := by
  obtain ⟨hLeft, hRight⟩ := below_of_broadcast h
  have hShared := shared_below_right h
  -- A position that reads `q` is known from where it reads the first operand, and conversely.
  apply Finset.sum_bij' (fun p _ => s.align p) (fun p _ => merge s out.rank p q)
  · -- what both share is read alike by both operands
    intro p hp
    obtain ⟨hBox, rfl⟩ := Finset.mem_filter.mp hp
    rw [Finset.mem_filter, align_align (shared_below_left s t) hLeft hBox,
      align_align hShared hRight hBox]
    exact ⟨align_mem_box hLeft hBox, rfl⟩
  · -- a position of the first operand that agrees with `q` is read together with it
    intro p hp
    obtain ⟨hBox, hAgree⟩ := Finset.mem_filter.mp hp
    obtain ⟨hMem, -, hSecond⟩ := merge_spec h hBox hq hAgree
    exact Finset.mem_filter.mpr ⟨hMem, hSecond⟩
  · -- there and back from the common shape
    intro p hp
    obtain ⟨hBox, rfl⟩ := Finset.mem_filter.mp hp
    have hLength := length_of_mem_box hBox
    obtain ⟨hRank, hExtent⟩ := broadcast_eq_ok.mp h
    have hMem := align_mem_box hLeft hBox
    apply ext_trailing
    · rw [merge, length_fromEnd, hLength]
    · intro k
      rw [trailing_merge hMem hq hRank, trailing_align (by omega), trailing_align (by omega)]
      -- The common extent is one only where both are, and there the coordinate is zero.
      have hk := hExtent k
      split
      · rename_i hs
        rw [hs, commonExtent?_one_left] at hk
        split
        · rename_i ht
          rw [ht] at hk
          exact (trailing_eq_zero hBox (Option.some.inj hk).symm).symm
        · rfl
      · rfl
  · intro p hp
    obtain ⟨hBox, hAgree⟩ := Finset.mem_filter.mp hp
    exact (merge_spec h hBox hq hAgree).2.1
  · intro p _
    rfl

/-! ## Shapes with as many entries -/

theorem Below.size_dvd (h : s.Below t) : s.size ∣ t.size := by
  induction t generalizing s with
  | nil =>
    obtain rfl : s = [] := List.length_eq_zero_iff.mp (Nat.le_zero.mp h.rank_le)
    exact dvd_rfl
  | cons n t ih =>
    rw [size_cons]
    rcases h.cons_cases with h | ⟨m, s, rfl, -, hFirst, h⟩
    · exact Dvd.dvd.mul_left (ih h) n
    · rw [size_cons]
      apply Nat.mul_dvd_mul ?_ (ih h)
      rcases hFirst with rfl | rfl
      · exact one_dvd n
      · exact dvd_rfl

private theorem align_cons_of_le {p : Position} (i : Nat) (hRank : s.rank ≤ p.length) :
    s.align (i :: p) = s.align p := by
  apply Position.ext (by simp)
  intro k hk
  rw [length_align] at hk
  rw [coord_align hk, coord_align hk, List.length_cons,
    show p.length + 1 - s.rank + k = p.length - s.rank + k + 1 by omega, coord_cons_succ]

private theorem align_cons {p : Position} (m i : Nat) (hRank : s.rank = p.length) :
    align (m :: s) (i :: p) = (if m = 1 then 0 else i) :: s.align p := by
  apply Position.ext (by simp)
  intro k hk
  rw [length_align] at hk
  rw [coord_align hk, List.length_cons, rank_cons, hRank, Nat.sub_self, Nat.zero_add]
  cases k with
  | zero => rfl
  | succ k =>
    rw [rank_cons] at hk
    rw [extent_cons_succ, coord_cons_succ, coord_cons_succ, coord_align (by omega), hRank,
      Nat.sub_self, Nat.zero_add]

/-- Between shapes with as many entries, an entry is read at its own number. -/
theorem rowMajor_align (h : s.Below t) (hSize : s.size = t.size) {p : Position}
    (hp : p ∈ t.box) : s.rowMajor (s.align p) = t.rowMajor p := by
  induction t generalizing s p with
  | nil =>
    obtain rfl : s = [] := List.length_eq_zero_iff.mp (Nat.le_zero.mp h.rank_le)
    rfl
  | cons n t ih =>
    cases p with
    | nil => simp [box] at hp
    | cons i p =>
      obtain ⟨hi, hTail⟩ := cons_mem_box.mp hp
      have hLength := length_of_mem_box hTail
      have hPos : 0 < size t := Nat.zero_lt_of_lt (rowMajor_lt_size hTail)
      -- An axis in front that the smaller shape lacks adds no entries, so its extent is one.
      have hOne : n * size t ∣ size t → n = 1 := by
        intro hDvd
        have hLe : n * size t ≤ 1 * size t := by
          rw [Nat.one_mul]
          exact Nat.le_of_dvd hPos hDvd
        have := Nat.le_of_mul_le_mul_right hLe hPos
        omega
      rw [size_cons] at hSize
      rcases h.cons_cases with hBelow | ⟨m, s, rfl, hRank, hFirst, hBelow⟩
      · -- only the larger shape has the axis
        obtain rfl : n = 1 := hOne (hSize ▸ hBelow.size_dvd)
        obtain rfl : i = 0 := Nat.lt_one_iff.mp hi
        rw [Nat.one_mul] at hSize
        have hRank : _ ≤ p.length := hLength.symm ▸ hBelow.rank_le
        rw [align_cons_of_le _ hRank, ih hBelow hSize hTail, rowMajor, Nat.zero_mul, Nat.zero_add]
      · -- both have it, with one extent
        rw [size_cons] at hSize
        have hEq : m = n := by
          rcases hFirst with rfl | rfl
          · rw [Nat.one_mul] at hSize
            exact (hOne (hSize ▸ hBelow.size_dvd)).symm
          · rfl
        subst hEq
        have hRest : size s = size t := Nat.eq_of_mul_eq_mul_left (Nat.zero_lt_of_lt hi) hSize
        have hCoord : (if m = 1 then 0 else i) = i := by
          split <;> omega
        rw [align_cons m i (hRank.trans hLength.symm), rowMajor, rowMajor, hCoord, hRest,
          ih hBelow hRest hTail]

theorem reshaped_eq_align (h : s.Below t) (hSize : s.size = t.size) {p : Position}
    (hp : p ∈ t.box) : s.reshaped t p = s.align p :=
  ((eq_reshaped_iff hSize hp (align_mem_box h hp)).mpr (rowMajor_align h hSize hp)).symm

/-- A reshape through a shape in between that has as many entries. -/
theorem reshaped_align {a : Shape} (h : s.Below t) (hSize : s.size = t.size) {p : Position}
    (hp : p ∈ t.box) : a.reshaped s (s.align p) = a.reshaped t p := by
  rw [reshaped, reshaped, rowMajor_align h hSize hp]

private theorem prod_eq_of_getD_eq {xs ys : List Nat}
    (h : ∀ k, xs.getD k 1 = ys.getD k 1) : xs.prod = ys.prod := by
  induction xs generalizing ys with
  | nil =>
    rw [List.prod_nil, eq_comm]
    apply List.prod_eq_one
    intro y hy
    -- A list that is longer holds nothing but ones behind the other's end.
    obtain ⟨k, hk, rfl⟩ := List.getElem_of_mem hy
    simpa [List.getD, hk] using (h k).symm
  | cons x xs ih =>
    cases ys with
    | nil =>
      rw [List.prod_nil]
      apply List.prod_eq_one
      intro y hy
      obtain ⟨k, hk, rfl⟩ := List.getElem_of_mem hy
      have hOne := h k
      rwa [List.getD_nil, List.getD, List.getElem?_eq_getElem hk, Option.getD_some] at hOne
    | cons y ys =>
      have hFirst : x = y := h 0
      rw [List.prod_cons, List.prod_cons, hFirst, ih fun k => h (k + 1)]

/-- Leading extents of one do not count in the number of entries. -/
theorem size_eq_of_trailing_eq (h : ∀ k, s.trailing k = t.trailing k) : s.size = t.size := by
  rw [size, size, ← List.prod_eq_foldl, ← List.prod_eq_foldl, ← List.prod_reverse s,
    ← List.prod_reverse t]
  exact prod_eq_of_getD_eq h

/-! ## Axes that are left out -/

/-- Leaving out axes moves those in front of them. If these have extent one, the rest still
stretches to the whole. -/
theorem below_map_filter {axes : List Nat} {keep : Nat → Bool} {f : Nat → Nat}
    (h : axes.Pairwise fun a b => keep b = false → f a = 1) :
    Below ((axes.filter keep).map f) (axes.map f) := by
  induction axes with
  | nil => exact Below.refl _
  | cons a axes ih =>
    obtain ⟨hFirst, hRest⟩ := List.pairwise_cons.mp h
    have hBelow := ih hRest
    by_cases hKeep : keep a = true
    · rw [List.filter_cons_of_pos hKeep, List.map_cons, List.map_cons]
      apply hBelow.cons
      -- Either all other axes are kept, or this one has extent one.
      by_cases hAll : ∀ b ∈ axes, keep b = true
      · right
        rw [List.filter_eq_self.mpr hAll]
        exact ⟨rfl, rfl⟩
      · left
        push Not at hAll
        obtain ⟨b, hb, hDropped⟩ := hAll
        exact hFirst b hb (by simpa using hDropped)
    · rw [List.filter_cons_of_neg hKeep]
      exact hBelow.cons_right (f a)

/-- The axes of a contribution and of its target stay aligned: either nothing has to be stretched,
or each axis in front of a summed one has extent one in the contribution or in the target. -/
def StaysAligned (s t : Shape) : Prop :=
  (∀ k, s.trailing k = 1 → t.trailing k = 1) ∨
    ∀ k j, k < j → s.trailing k ≠ 1 → t.trailing k = 1 → s.trailing j = 1 ∨ t.trailing j = 1

/-- What is left of a contribution stretches to the target, if it does not have as many
entries. -/
theorem StaysAligned.size_or_below (h : s.StaysAligned t) (hCommon : s.broadcast t = .ok out) :
    (s.shared t).size = t.size ∨
      (s.without (Reverse.stretchedAxes (s.shared t)
        (trailingDims (s.shared t).rank s.rank) s)).Below (s.shared t) := by
  have hLeft := shared_below_left s t
  have hRank := hLeft.rank_le
  rcases h with hNothing | hFront
  · -- nothing is stretched: the target has the extents of what is shared
    left
    apply size_eq_of_trailing_eq
    intro k
    rw [trailing_shared]
    split
    · rename_i ht
      exact ht.symm
    · rename_i ht
      exact trailing_eq_of_broadcast hCommon (fun hs => ht (hNothing k hs)) ht
  · -- leaving out the summed axes moves only axes of extent one
    right
    rw [without, map_extent_kept hLeft.stretches]
    conv_rhs => rw [← map_extent_axes (s.shared t)]
    apply below_map_filter
    apply List.pairwise_lt_range.imp_of_mem
    intro a b ha hb hLt hDropped
    have ha := List.mem_range.mp ha
    have hb := List.mem_range.mp hb
    have hGet : (trailingDims (s.shared t).rank s.rank).getD b 0 =
        s.rank - (s.shared t).rank + b := by
      rw [trailingDims, List.getD, List.getElem?_map, List.getElem?_range hb]
      rfl
    rw [unstretched, hGet] at hDropped
    obtain ⟨hOne, hNot⟩ : (s.shared t).extent b = 1 ∧
        s.extent (s.rank - (s.shared t).rank + b) ≠ 1 := by
      simpa only [Bool.not_eq_false', Bool.and_eq_true, beq_iff_eq, bne_iff_ne] using hDropped
    -- Counted from the end, the dropped axis comes first.
    rw [extent_eq_trailing hb] at hOne
    rw [extent_eq_trailing (by omega), show s.rank - 1 - (s.rank - (s.shared t).rank + b) =
      (s.shared t).rank - 1 - b by omega] at hNot
    have ht : t.trailing ((s.shared t).rank - 1 - b) = 1 := by
      rw [trailing_shared] at hOne
      by_contra hNotOne
      rw [if_neg hNotOne] at hOne
      exact hNot hOne
    -- So the axis in front of it has extent one in one of the shapes, and in what they share.
    have hFirst := hFront _ ((s.shared t).rank - 1 - a) (by omega) hNot ht
    rw [extent_eq_trailing ha, trailing_shared]
    split
    · rfl
    · rename_i hNotOne
      exact hFirst.resolve_right hNotOne

end Shape

/-- An array that stretches to a shape spreads its entries there. -/
theorem Graph.Fills.spreads_below {R : Type*} [CommRing R] {I : Interpretation R}
    {inputs : ValueId → Position → R} {g : Graph} {s out : Shape} {v : ValueId}
    {entries : Position → R} (h : g.Fills I inputs s v entries) (hBelow : s.Below out) :
    g.Spreads I inputs out v fun p => entries (s.align p) := by
  refine ⟨h.lt, h.shape ▸ hBelow, ?_⟩
  intro p hp
  rw [Tensor.aligned, Graph.tensor, h.shape]
  exact h.entry _ (Shape.align_mem_box hBelow hp)

namespace Reverse

open Recording

/-- A contribution is summed over the axes that do not belong to what it shares with the
target. -/
theorem surplusAxes_shared (s t : Shape) :
    surplusAxes s t = surplusAxes s (s.shared t) := by
  -- The two places of an axis are the same one, counted from the end.
  have hExtent : ∀ k < min s.rank t.rank, (s.shared t).extent k =
      if t.extent (t.rank - s.rank + k) = 1 then 1 else s.extent (s.rank - t.rank + k) := by
    intro k hk
    rw [Shape.extent_eq_trailing (by rwa [Shape.rank_shared]), Shape.rank_shared,
      Shape.trailing_shared, Shape.extent_eq_trailing (by omega),
      Shape.extent_eq_trailing (by omega),
      show t.rank - 1 - (t.rank - s.rank + k) = min s.rank t.rank - 1 - k by omega,
      show s.rank - 1 - (s.rank - t.rank + k) = min s.rank t.rank - 1 - k by omega]
  rw [surplusAxes, surplusAxes, Shape.rank_shared,
    show s.rank - min s.rank t.rank = s.rank - t.rank by omega,
    show min s.rank t.rank - s.rank = 0 by omega,
    show t.rank - (t.rank - s.rank) = min s.rank t.rank by omega, Nat.sub_zero]
  simp only [Nat.zero_add]
  congr 2
  apply List.filter_congr
  intro k hk
  rw [hExtent k (List.mem_range.mp hk)]
  by_cases ht : t.extent (t.rank - s.rank + k) = 1
  · rw [if_pos ht, ht]
  · rw [if_neg ht, beq_eq_false_iff_ne.mpr ht, Bool.false_and]
    by_cases hs : s.extent (s.rank - t.rank + k) = 1
    · rw [hs, bne_self_eq_false, Bool.and_false]
    · rw [beq_eq_false_iff_ne.mpr hs, Bool.false_and]

variable {R : Type*} [CommRing R] {I : Interpretation R} {inputs : ValueId → Position → R}
  {r : Recorder} {v : ValueId} {t out : Shape}

/-- What a contribution becomes, where no axis moves that would still have to be stretched. -/
private theorem ensures_unbroadcast_common (hv : v < r.graph.size)
    (hCommon : (r.graph.shape v).broadcast t = .ok out)
    (hAligned : (r.graph.shape v).StaysAligned t) :
    Ensures (unbroadcast v t) r fun w r' => r.Extends r' ∧
      r'.graph.Fills I inputs t w fun q =>
        ∑ p ∈ out.box with t.align p = q,
          r.graph.entry I inputs v ((r.graph.shape v).align p) := by
  have hFills := Graph.fills_self I inputs hv
  generalize r.graph.shape v = s at hCommon hAligned hFills ⊢
  by_cases hSame : s = t
  · subst hSame
    obtain rfl : out = s := Shape.eq_of_broadcast_below hCommon (Shape.Below.refl s)
    apply (ensures_unbroadcast (Shape.Below.refl out) hFills).imp_extends
    intro w r' _ hw
    apply hw.congr
    intro q _
    apply Finset.sum_congr rfl
    intro p hp
    rw [Shape.align_self (Finset.mem_filter.mp hp).1]
  have hLeft := Shape.shared_below_left s t
  have hRight := Shape.shared_below_right hCommon
  unfold unbroadcast
  apply ensures_shapeOf_bind
  rw [hFills.shape, if_neg hSame, surplusAxes_shared, surplusAxes_eq hLeft]
  apply (ensures_sum_stretched hLeft.stretches hFills).bind_extends
  rintro summed r₁ - ⟨sums, hSummed, hSums⟩
  have hSize := size_without hLeft.stretches
  have hBelow := hAligned.size_or_below hCommon
  generalize s.without (stretchedAxes (s.shared t)
    (trailingDims (s.shared t).rank s.rank) s) = left at hSummed hSums hSize hBelow
  -- What is left is read through the shared shape, whatever is done to it next.
  have hReads : ∀ q ∈ t.box, sums (left.reshaped (s.shared t) ((s.shared t).align q)) =
      ∑ p ∈ out.box with t.align p = q, r.graph.entry I inputs v (s.align p) := by
    intro q hq
    rw [Shape.sum_align_align hCommon hq, hSums _ (Shape.align_mem_box hRight hq)]
    congr 1
    apply Finset.filter_congr
    intro p hp
    rw [← Shape.length_of_mem_box hp, Shape.project_trailingDims]
  apply ensures_shapeOf_bind
  rw [hSummed.shape]
  split
  · rename_i hLeftover
    subst hLeftover
    refine ⟨Recorder.Extends.refl r₁, (fills_of_reshaped_self hSummed).congr ?_⟩
    intro q hq
    rw [← Shape.reshaped_align hRight hSize.symm hq]
    exact hReads q hq
  · split
    · rename_i hAsMany
      apply (ensures_reshape_fills hAsMany hSummed).imp_extends
      intro w r₂ _ hw
      apply hw.congr
      intro q hq
      rw [← Shape.reshaped_align hRight (hSize.symm.trans hAsMany) hq]
      exact hReads q hq
    · rename_i hFewer
      have hShared := hBelow.resolve_left fun h => hFewer (hSize.trans h)
      have hTarget := hShared.trans hRight
      apply (ensures_broadcastTo hSummed.lt (hSummed.shape ▸ hTarget)).imp_extends
      rintro w r₂ hExtends ⟨hw, hGet⟩
      apply (fills_of_trailing hExtends (hSummed.spreads_below hTarget) hw.ge hGet).congr
      intro q hq
      rw [← Shape.align_align hShared hRight hq,
        ← Shape.reshaped_eq_align hShared hSize (Shape.align_mem_box hRight hq)]
      exact hReads q hq

/-- **A contribution adds up, for each entry of its target, what it has at all positions of the
common shape that read the entry**, if no axis moves that would still have to be stretched, and if
the numbers of entries of both fit a word. All entries of what is recorded are counted exactly. -/
theorem unbroadcast_transposes (hv : v < r.graph.size) (hCountable : (r.graph.shape v).Countable)
    (hTarget : t.Countable) (hCommon : (r.graph.shape v).broadcast t = .ok out)
    (hAligned : (r.graph.shape v).StaysAligned t) :
    Ensures (unbroadcast v t) r fun w r' => r.Extends r' ∧
      (r'.graph.Fills I inputs t w fun q =>
        ∑ p ∈ out.box with t.align p = q,
          r.graph.entry I inputs v ((r.graph.shape v).align p)) ∧
      ∀ u, r.graph.size ≤ u → (r'.graph.shape u).count? = some (r'.graph.shape u).size := by
  obtain ⟨hExtends, hFills⟩ :=
    @ensures_unbroadcast_common _ _ I inputs _ _ _ _ hv hCommon hAligned
  -- Nothing is recorded yet, and a missing value has no axes.
  have hStart : ∀ u, r.graph.size ≤ u → (r.graph.shape u).Countable := by
    intro u hu
    rw [Graph.shape, Graph.get?_eq_none hu]
    exact Shape.countable_nil
  obtain ⟨-, hCounted, -⟩ := inherits_unbroadcast (Graph.inherited_countable r.graph.size)
    hTarget ⟨hv, hCountable⟩ (fun hNot => hNot.elim) hStart
  exact ⟨hExtends, hFills, fun u hu => (hCounted u hu).count?_eq⟩

/-! ## Products that are not recorded -/

/-- The sum of all entries of the product of two arrays, for shapes whose common shape is
given. -/
def productTotal (left right out : Shape) : Trace where
  name := "f"
  graph := ⟨#[⟨.leaf, left⟩, ⟨.leaf, right⟩, ⟨.op (.arith .mul) [0, 1], out⟩,
    ⟨.op (.reduceSum out.axes) [2], []⟩]⟩
  arguments := [⟨0, some "x", false⟩, ⟨1, some "y", false⟩]
  bindings := []
  tags := []
  outputs := [3]

/-- Rows on top of each other are added up and repeated below each other. -/
theorem unbroadcast_transposes_rows :
    ∃ w r', unbroadcast 1 [4, 3] (productTotal [4, 3] [2, 1, 3] [2, 4, 3]).recorder = (w, r') ∧
      r'.error = none ∧ r'.graph.shape w = [4, 3] ∧
      ∀ inputs : ValueId → Position → ℚ, r'.graph.entry plainReading inputs w [3, 2] =
        inputs 1 [0, 0, 2] + inputs 1 [1, 0, 2] := by
  have hAligned : Shape.StaysAligned [2, 1, 3] [4, 3] := by
    right
    intro k j hLt hs ht
    match k with
    | 0 | 1 => exact absurd ht (by decide)
    | k + 2 =>
      have hRank : Shape.rank [2, 1, 3] ≤ j := Nat.le_trans (Nat.le_add_left 3 k) hLt
      exact Or.inl (Shape.trailing_of_rank_le hRank)
  obtain ⟨w, r', hRun⟩ : ∃ w r',
      unbroadcast 1 [4, 3] (productTotal [4, 3] [2, 1, 3] [2, 4, 3]).recorder = (w, r') :=
    ⟨_, _, rfl⟩
  have hAll := fun inputs : ValueId → Position → ℚ =>
    @unbroadcast_transposes ℚ _ plainReading inputs
      (productTotal [4, 3] [2, 1, 3] [2, 4, 3]).recorder 1 [4, 3] [2, 4, 3] (by decide)
      (by decide +kernel) (by decide +kernel) (by decide) hAligned
  simp only [Ensures, hRun] at hAll
  refine ⟨w, r', hRun, (hAll 0).1.error, (hAll 0).2.1.shape, ?_⟩
  intro inputs
  -- Two positions of the product are read at the one of the operand.
  have hReads : ({p ∈ Shape.box [2, 4, 3] | Shape.align [4, 3] p = [3, 2]} : Finset Position) =
      {[0, 3, 2], [1, 3, 2]} := by decide
  rw [(hAll inputs).2.1.entry [3, 2] (by decide), hReads, Finset.sum_pair (by decide),
    Graph.entry_of_leaf rfl, Graph.entry_of_leaf rfl]
  rfl

/-- **Other contributions fail, or are read along the wrong axis.** In the first product the
last axis is summed, and the one before it, of extent three, then stands where the target has
extent one: there is no gradient. In the second one it stands on an axis as long, and so row
`j` of the target gets the sum of row `i`. -/
theorem unbroadcast_misaligned :
    Shape.broadcast [3, 1, 2] [3, 4, 1] = .ok [3, 4, 2] ∧
      Trace.ofDraft (productTotal [3, 4, 1] [3, 1, 2] [3, 4, 2]).toDraft =
        .ok (productTotal [3, 4, 1] [3, 1, 2] [3, 4, 2]) ∧
      (unbroadcast 1 [3, 4, 1] (productTotal [3, 4, 1] [3, 1, 2] [3, 4, 2]).recorder).2.error =
        some (.shape (.notBroadcastable [3, 1] [3, 4, 1])) ∧
      (productTotal [3, 4, 1] [3, 1, 2] [3, 4, 2]).differentiate .grad [0] =
        .error (.recording (.shape (.notBroadcastable [3, 1] [3, 4, 1]))) ∧
    Shape.broadcast [2, 1, 2] [2, 2, 1] = .ok [2, 2, 2] ∧
      ∃ r', unbroadcast 1 [2, 2, 1] (productTotal [2, 2, 1] [2, 1, 2] [2, 2, 2]).recorder =
          (5, r') ∧ r'.error = none ∧
        ∀ inputs : ValueId → Position → ℚ, r'.graph.entry plainReading inputs 5 [0, 1, 0] =
          inputs 1 [1, 0, 0] + inputs 1 [1, 0, 1] := by
  refine ⟨by decide, by decide, by decide, by with_unfolding_all rfl, by decide,
    { (productTotal [2, 2, 1] [2, 1, 2] [2, 2, 2]).recorder with
      graph := ⟨(productTotal [2, 2, 1] [2, 1, 2] [2, 2, 2]).graph.values ++
        #[⟨.op (.reduceSum [2]) [1], [2, 1]⟩, ⟨.op (.broadcast [1, 2]) [4], [2, 2, 1]⟩]⟩ },
    rfl, rfl, ?_⟩
  intro inputs
  have hReads : summedPositions [2] [2, 1, 2] [1, 0] = {[1, 0, 0], [1, 0, 1]} := by decide
  rw [Graph.entry_of_op rfl (by decide)]
  show Graph.entry plainReading inputs _ 4 [1, 0] = _
  rw [Graph.entry_of_op rfl (by decide)]
  show ∑ p ∈ summedPositions [2] [2, 1, 2] [1, 0], Graph.entry plainReading inputs _ 1 p = _
  rw [hReads, Finset.sum_pair (by decide), Graph.entry_of_leaf rfl, Graph.entry_of_leaf rfl]

end Reverse

end ArrayEquations
