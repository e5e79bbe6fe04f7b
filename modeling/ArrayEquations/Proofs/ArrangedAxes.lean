import ArrayEquations.Derivative.Reverse
import ArrayEquations.Proofs.ContractionPairs
import ArrayEquations.Proofs.Permutation
import ArrayEquations.Proofs.Recording
import Mathlib.Data.List.Sort

/-!
# ArrayEquations — putting axes back in order

The cotangent of a transposed array is transposed back. The cotangent of a contracted one
is a contraction of its own, of the result's cotangent with the other operand. The axes of
that come as they must for a contraction: the contracted axes of the operand stand last or
in the middle, in the order of their partners. Another transposition brings them where
they belong.

## Main results

* `Reverse.ensures_transpose_inverse` — the inverse permutation puts axes back.
* `Reverse.map_contracted_iff` — partners put in order still are partners.
* `Reverse.ensures_contractLhs`, `Reverse.ensures_contractRhs` — the contributions of a
  contraction.
-/

namespace ArrayEquations

open Position

/-- A list that names each axis below a number once is a permutation. -/
theorem IsPermutation.of_mem_iff {order : List Nat} {n : Nat} (hNodup : order.Nodup)
    (h : ∀ a, a ∈ order ↔ a < n) : IsPermutation order ∧ order.length = n := by
  have hPerm : order.Perm (List.range n) := by
    rw [List.perm_ext_iff_of_nodup hNodup List.nodup_range]
    intro a
    rw [h, List.mem_range]
  have hLength : order.length = n := by
    rw [hPerm.length_eq, List.length_range]
  refine ⟨⟨?_, hNodup⟩, hLength⟩
  intro a ha
  rw [hLength]
  exact (h a).mp ha

namespace Reverse

/-! ## Inverse permutations -/

private theorem length_inversePermutation (order : List Nat) :
    (inversePermutation order).length = order.length := by
  simp [inversePermutation]

section Inverse

variable {order : List Nat} (h : IsPermutation order)

include h

theorem inversePermutation_eq :
    inversePermutation order = (List.range order.length).map (order.idxOf ·) := by
  apply List.map_congr_left
  intro axis hAxis
  obtain ⟨k, hk, hPosition⟩ := last_position_eq_idxOf h.nodup (h.mem (List.mem_range.mp hAxis))
  rw [hk]
  exact hPosition

private theorem getElem_inversePermutation {a : Nat} (ha : a < (inversePermutation order).length) :
    (inversePermutation order)[a] = order.idxOf a := by
  simp [inversePermutation_eq h]

theorem isPermutation_inverse : IsPermutation (inversePermutation order) := by
  refine (@IsPermutation.of_mem_iff _ order.length ?_ ?_).1
  · rw [inversePermutation_eq h]
    apply List.nodup_range.map_on
    intro a ha b _ hEq
    exact (List.idxOf_inj (h.mem (List.mem_range.mp ha))).mp hEq
  · intro a
    rw [inversePermutation_eq h, List.mem_map]
    constructor
    · rintro ⟨b, hb, rfl⟩
      exact h.idxOf_lt (List.mem_range.mp hb)
    · intro ha
      exact ⟨order[a], List.mem_range.mpr (h.lt_length _ (List.getElem_mem ha)),
        h.idxOf_getElem ha⟩

/-- The inverse names at `order[k]` the position `k`. -/
private theorem idxOf_inversePermutation {k : Nat} (hk : k < order.length) :
    (inversePermutation order).idxOf k = order[k] := by
  have hLt : order[k] < (inversePermutation order).length := by
    rw [length_inversePermutation]
    exact h.lt_length _ (List.getElem_mem hk)
  have hGet : (inversePermutation order)[order[k]] = k := by
    rw [getElem_inversePermutation h, h.idxOf_getElem hk]
  have := (isPermutation_inverse h).idxOf_getElem hLt
  rwa [hGet] at this

/-- Reading through the inverse permutation is reading the coordinates in order. -/
theorem unpermute_inverse (q : Position) :
    unpermute (inversePermutation order) q = order.map q.coord := by
  apply List.ext_getElem
  · simp [unpermute, length_inversePermutation]
  · intro k h₁ h₂
    have hk : k < order.length := by simpa using h₂
    simp [unpermute, tabulate, idxOf_inversePermutation h hk]

theorem map_extent_inverse {s : Shape} (hLength : order.length = s.rank) :
    (inversePermutation order).map (Shape.extent (order.map s.extent)) = s := by
  conv_rhs => rw [← s.map_extent_axes, Shape.axes, ← hLength]
  rw [inversePermutation_eq h, List.map_map]
  apply List.map_congr_left
  intro a ha
  have hMem := h.mem (List.mem_range.mp ha)
  show Shape.extent (order.map s.extent) (order.idxOf a) = s.extent a
  rw [Shape.extent_map (List.idxOf_lt_length_of_mem hMem), List.getElem_idxOf]

end Inverse

open Recording

variable {R : Type*} [CommRing R] {I : Interpretation R} {inputs : ValueId → Position → R}
  {r : Recorder} {s : Shape} {v : ValueId} {entries : Position → R}

/-- **The inverse permutation puts axes back.** -/
theorem ensures_transpose_inverse {order : List Nat} (h : IsPermutation order)
    (hLength : order.length = s.rank)
    (hv : r.graph.Fills I inputs (order.map s.extent) v entries) :
    Ensures (transpose v (inversePermutation order)) r fun w r' => r.Extends r' ∧
      r'.graph.Fills I inputs s w fun q => entries (order.map q.coord) := by
  have hInverse := isPermutation_inverse h
  have hRank : (inversePermutation order).length = Shape.rank (order.map s.extent) := by
    rw [length_inversePermutation]
    simp [Shape.rank]
  have hOperands : ∀ w ∈ [v], w < r.graph.size := by simpa using hv.lt
  have hShape : (Operation.transpose (inversePermutation order)).resultShape
      ([v].map r.graph.shape) = .ok s := by
    rw [List.map_singleton, hv.shape]
    exact transposeShape_eq_ok.mpr ⟨⟨hRank, hRank ▸ hInverse.lt_length, hInverse.nodup⟩,
      (map_extent_inverse h hLength).symm⟩
  apply (ensures_push hOperands hShape).imp_extends
  rintro w r' hExtends ⟨hw, hGet⟩
  apply (fills_of_op I inputs hExtends hOperands hw.ge hGet).congr
  intro q hq
  -- The inverse of the inverse puts the coordinates back into the given order.
  show r.graph.entry I inputs v (unpermute (inversePermutation order) q) = _
  rw [unpermute_inverse h]
  apply hv.entry
  apply Shape.map_coord_mem_box hq
  intro a ha
  rw [← hLength]
  exact h.lt_length a ha

/-- The axes are put in order, if they are not already. -/
theorem ensures_arrange {order : List Nat} (h : IsPermutation order)
    (hLength : order.length = s.rank)
    (hv : r.graph.Fills I inputs (order.map s.extent) v entries) :
    Ensures (arrange v order) r fun w r' => r.Extends r' ∧
      r'.graph.Fills I inputs s w fun q => entries (order.map q.coord) := by
  unfold arrange
  split
  · rename_i hOrder
    have hAxes : order = s.axes := by
      rw [hOrder, hLength, Shape.axes]
    rw [hAxes, s.map_extent_axes] at hv
    refine ⟨Recorder.Extends.refl r, hv.congr ?_⟩
    intro q hq
    rw [hAxes]
    exact congrArg entries (tabulate_coord (Shape.length_of_mem_box hq)).symm
  · exact ensures_transpose_inverse h hLength hv

/-! ## Partners in order -/

section Partners

variable {contract partners batch : List Nat} {rank : Nat}

/-- The pairs in the order of their first members. -/
private theorem exists_sorted (hLength : contract.length = partners.length)
    (hNodup : contract.Nodup) :
    ∃ sorted : List (Nat × Nat), sorted.Perm (contract.zip partners) ∧
      (sorted.map (·.1)).Pairwise (· < ·) ∧
      partnersInOrder contract partners = sorted.map (·.2) := by
  let before (p q : Nat × Nat) : Bool := p.1 < q.1 || (p.1 == q.1 && p.2 ≤ q.2)
  have hBefore : ∀ p q, before p q = true ↔ p.1 < q.1 ∨ p.1 = q.1 ∧ p.2 ≤ q.2 := by
    intro p q
    simp [before]
  let sorted := (contract.zip partners).mergeSort before
  have hPerm : sorted.Perm (contract.zip partners) := List.mergeSort_perm _ _
  have hFirst : (sorted.map (·.1)).Nodup := by
    rw [(hPerm.map _).nodup_iff, List.map_fst_zip (Nat.le_of_eq hLength)]
    exact hNodup
  have hSorted : sorted.Pairwise fun p q => before p q = true := by
    apply List.pairwise_mergeSort
    · intro a b c hab hbc
      rw [hBefore] at hab hbc ⊢
      omega
    · intro a b
      rw [Bool.or_eq_true, hBefore, hBefore]
      omega
  refine ⟨sorted, hPerm, ?_, rfl⟩
  -- No two pairs have the same first member, so the order of those is strict.
  have hNe := List.pairwise_map.mp hFirst
  rw [List.pairwise_map]
  apply (hSorted.and hNe).imp
  rintro p q ⟨hpq, hDiffer⟩
  rw [hBefore] at hpq
  omega

/-- The pairs in order have the contracted axes, which are neither free nor batched, as their
first members, and their partners as the second. -/
private theorem exists_contracted (hLength : contract.length = partners.length)
    (hLt : ∀ a ∈ contract ++ batch, a < rank) (hNodup : (contract ++ batch).Nodup) :
    ∃ sorted : List (Nat × Nat), sorted.Perm (contract.zip partners) ∧
      freeAxes rank (freeAxes rank contract batch) batch = sorted.map (·.1) ∧
      partnersInOrder contract partners = sorted.map (·.2) := by
  obtain ⟨sorted, hPerm, hAscending, hEq⟩ := exists_sorted hLength hNodup.of_append_left
  have hMem : ∀ a, a ∈ sorted.map (·.1) ↔ a ∈ contract := by
    intro a
    rw [(hPerm.map _).mem_iff, List.map_fst_zip (Nat.le_of_eq hLength)]
  refine ⟨sorted, hPerm, ?_, hEq⟩
  apply List.Pairwise.eq_of_mem_iff (r := (· < ·))
  · exact List.pairwise_lt_range.filter _
  · exact hAscending
  · intro a
    rw [mem_freeAxes, mem_freeAxes, hMem]
    have hDisjoint : a ∈ contract → a ∉ batch :=
      fun hc hb => (List.nodup_append.mp hNodup).2.2 a hc a hb rfl
    have hRank : a ∈ contract → a < rank := fun hc => hLt a (List.mem_append_left _ hc)
    tauto

private theorem perm_partnersInOrder (hLength : contract.length = partners.length)
    (hNodup : contract.Nodup) : (partnersInOrder contract partners).Perm partners := by
  obtain ⟨sorted, hPerm, -, hEq⟩ := exists_sorted hLength hNodup
  have := hPerm.map (·.2)
  rwa [← hEq, List.map_snd_zip (Nat.le_of_eq hLength.symm)] at this

private theorem length_contracted (hLength : contract.length = partners.length)
    (hLt : ∀ a ∈ contract ++ batch, a < rank) (hNodup : (contract ++ batch).Nodup) :
    (freeAxes rank (freeAxes rank contract batch) batch).length =
      (partnersInOrder contract partners).length := by
  obtain ⟨sorted, -, hFirst, hSecond⟩ := exists_contracted hLength hLt hNodup
  rw [hFirst, hSecond, List.length_map, List.length_map]

/-- **Partners put in order still are partners.** -/
theorem map_contracted_iff (hLength : contract.length = partners.length)
    (hLt : ∀ a ∈ contract ++ batch, a < rank) (hNodup : (contract ++ batch).Nodup)
    {f g : Nat → Nat} :
    (freeAxes rank (freeAxes rank contract batch) batch).map f =
        (partnersInOrder contract partners).map g ↔
      contract.map f = partners.map g := by
  obtain ⟨sorted, hPerm, hFirst, hSecond⟩ := exists_contracted hLength hLt hNodup
  rw [hFirst, hSecond, List.map_map, List.map_map, List.map_inj_left,
    ← ContractionAxes.forall_zip_iff_map_eq hLength]
  constructor
  · intro h x hx
    exact h x (hPerm.mem_iff.mpr hx)
  · intro h x hx
    exact h x (hPerm.mem_iff.mp hx)

/-- All axes of a contraction's operand, in any order of those. -/
private theorem isPermutation_of_perm {order : List Nat}
    (hOrder : order.Perm (batch ++ freeAxes rank contract batch ++ contract))
    (hLt : ∀ a ∈ contract ++ batch, a < rank) (hNodup : (contract ++ batch).Nodup) :
    IsPermutation order ∧ order.length = rank := by
  obtain ⟨hContract, hBatch, hDisjoint⟩ := List.nodup_append.mp hNodup
  apply IsPermutation.of_mem_iff
  · rw [hOrder.nodup_iff, List.nodup_append, List.nodup_append]
    refine ⟨⟨hBatch, nodup_freeAxes _ _ _, ?_⟩, hContract, ?_⟩
    · rintro a ha b hb rfl
      exact (mem_freeAxes.mp hb).2.2 ha
    · rintro a ha b hb rfl
      rcases List.mem_append.mp ha with ha | ha
      · exact hDisjoint a hb a ha rfl
      · exact (mem_freeAxes.mp ha).2.1 hb
  · intro a
    rw [hOrder.mem_iff, List.mem_append, List.mem_append, mem_freeAxes]
    have := hLt a
    rw [List.mem_append] at this
    tauto

end Partners

/-! ## Blocks of axes -/

/-- Axes that follow one another. -/
private def block (offset n : Nat) : List Nat := (List.range n).map (offset + ·)

private theorem mem_block {offset n a : Nat} :
    a ∈ block offset n ↔ offset ≤ a ∧ a < offset + n := by
  rw [block, List.mem_map]
  constructor
  · rintro ⟨k, hk, rfl⟩
    have := List.mem_range.mp hk
    omega
  · rintro ⟨h₁, h₂⟩
    exact ⟨a - offset, List.mem_range.mpr (by omega), by omega⟩

private theorem pairwise_block (offset n : Nat) : (block offset n).Pairwise (· < ·) := by
  rw [block, List.pairwise_map]
  exact List.pairwise_lt_range.imp fun h => by omega

private theorem append_append_eq_iff {xs ys zs xs' ys' zs' : List Nat}
    (hx : xs.length = xs'.length) (hy : ys.length = ys'.length) :
    xs ++ ys ++ zs = xs' ++ ys' ++ zs' ↔ xs = xs' ∧ ys = ys' ∧ zs = zs' := by
  constructor
  · intro h
    obtain ⟨h, hz⟩ := List.append_inj h (by simp [hx, hy])
    obtain ⟨hx, hy⟩ := List.append_inj h hx
    exact ⟨hx, hy, hz⟩
  · rintro ⟨rfl, rfl, rfl⟩
    rfl

/-- A table, cut into blocks. -/
private theorem map_range_blocks (a b c : Nat) (f : Nat → Nat) :
    (List.range (a + b + c)).map f =
      (List.range a).map f ++ (block a b).map f ++ (block (a + b) c).map f := by
  rw [List.range_add, List.range_add, List.map_append, List.map_append]
  rfl

private theorem freeAxes_middle (a b c : Nat) :
    freeAxes (a + b + c) (block (a + b) c) (List.range a) = block a b := by
  apply List.Pairwise.eq_of_mem_iff (r := (· < ·))
  · exact List.pairwise_lt_range.filter _
  · exact pairwise_block a b
  · intro x
    rw [mem_freeAxes, mem_block, mem_block, List.mem_range]
    omega

private theorem freeAxes_last (a b c : Nat) :
    freeAxes (a + b + c) (block a b) (List.range a) = block (a + b) c := by
  apply List.Pairwise.eq_of_mem_iff (r := (· < ·))
  · exact List.pairwise_lt_range.filter _
  · exact pairwise_block _ _
  · intro x
    rw [mem_freeAxes, mem_block, mem_block, List.mem_range]
    omega

private theorem block_append_range {a o n : Nat} (h : a ≤ o) :
    (∀ x ∈ block o n ++ List.range a, x < o + n) ∧ (block o n ++ List.range a).Nodup := by
  constructor
  · intro x hx
    rw [List.mem_append, mem_block, List.mem_range] at hx
    omega
  · rw [List.nodup_append]
    refine ⟨(pairwise_block o n).imp Nat.ne_of_lt, List.nodup_range, ?_⟩
    intro x hx y hy
    rw [mem_block] at hx
    rw [List.mem_range] at hy
    omega

private theorem free_append_batch {rank : Nat} {contract batch : List Nat}
    (hLt : ∀ a ∈ contract ++ batch, a < rank) (hNodup : (contract ++ batch).Nodup) :
    (∀ a ∈ freeAxes rank contract batch ++ batch, a < rank) ∧
      (freeAxes rank contract batch ++ batch).Nodup := by
  constructor
  · intro a ha
    rcases List.mem_append.mp ha with ha | ha
    · exact (mem_freeAxes.mp ha).1
    · exact hLt a (List.mem_append_right _ ha)
  · rw [List.nodup_append]
    refine ⟨nodup_freeAxes _ _ _, hNodup.of_append_right, ?_⟩
    rintro a ha b hb rfl
    exact (mem_freeAxes.mp ha).2.2 hb

/-! ## Contractions -/

section Contraction

variable {axes : ContractionAxes} {ls rs : Shape}

/-- The extents of a contraction's result, block by block. -/
private theorem outShape_blocks (axes : ContractionAxes) (ls rs : Shape) :
    let batch := axes.lhsBatch.length
    let lhsFree := (axes.lhsFree ls.rank).length
    (List.range batch).map (axes.outShape ls rs).extent = axes.lhsBatch.map ls.extent ∧
      (block batch lhsFree).map (axes.outShape ls rs).extent =
        (axes.lhsFree ls.rank).map ls.extent ∧
      (block (batch + lhsFree) (axes.rhsFree rs.rank).length).map (axes.outShape ls rs).extent =
        (axes.rhsFree rs.rank).map rs.extent := by
  have hExtents := (axes.outShape ls rs).map_extent_axes
  rw [Shape.axes, axes.rank_outShape, map_range_blocks] at hExtents
  exact (append_append_eq_iff (by simp) (by simp [block])).mp hExtents

/-- A position of a contraction's result, block by block. -/
private theorem position_blocks {p : Position} (hp : p ∈ (axes.outShape ls rs).box)
    {xs ys zs : List Nat} (hx : xs.length = axes.lhsBatch.length)
    (hy : ys.length = (axes.lhsFree ls.rank).length) :
    xs ++ ys ++ zs = p ↔ (List.range axes.lhsBatch.length).map p.coord = xs ∧
      (block axes.lhsBatch.length (axes.lhsFree ls.rank).length).map p.coord = ys ∧
      (block (axes.lhsBatch.length + (axes.lhsFree ls.rank).length)
        (axes.rhsFree rs.rank).length).map p.coord = zs := by
  have hCoords : (List.range (axes.outShape ls rs).rank).map p.coord = p :=
    tabulate_coord (Shape.length_of_mem_box hp)
  rw [axes.rank_outShape, map_range_blocks] at hCoords
  rw [eq_comm]
  conv_lhs => rw [← hCoords]
  exact append_append_eq_iff (by simp [hx]) (by simp [block, hy])

/-- The axes of the contraction that a left operand's contribution is. -/
def lhsAxes (axes : ContractionAxes) (ls rs : Shape) : ContractionAxes where
  lhsContract := block (axes.lhsBatch.length + (axes.lhsFree ls.rank).length)
    (axes.rhsFree rs.rank).length
  rhsContract := axes.rhsFree rs.rank
  lhsBatch := List.range axes.lhsBatch.length
  rhsBatch := axes.rhsBatch

/-- The axes of the contraction that a right operand's contribution is. -/
def rhsAxes (axes : ContractionAxes) (ls : Shape) : ContractionAxes where
  lhsContract := axes.lhsFree ls.rank
  rhsContract := block axes.lhsBatch.length (axes.lhsFree ls.rank).length
  lhsBatch := axes.lhsBatch
  rhsBatch := List.range axes.lhsBatch.length

private theorem pairable_lhsAxes (h : axes.Pairable ls rs) :
    (lhsAxes axes ls rs).Pairable (axes.outShape ls rs) rs := by
  obtain ⟨hBatch, -, hFree⟩ := outShape_blocks axes ls rs
  obtain ⟨hLt, hNodup⟩ := @block_append_range axes.lhsBatch.length
    (axes.lhsBatch.length + (axes.lhsFree ls.rank).length) (axes.rhsFree rs.rank).length
    (Nat.le_add_right _ _)
  obtain ⟨hLt', hNodup'⟩ := free_append_batch h.rhs_lt h.rhs_nodup
  rw [← axes.rank_outShape] at hLt
  exact ⟨by simp [lhsAxes, block], by simp [lhsAxes, h.batch_length], hLt, hNodup, hLt', hNodup',
    hFree, hBatch.trans h.batch_extent⟩

private theorem pairable_rhsAxes (h : axes.Pairable ls rs) :
    (rhsAxes axes ls).Pairable ls (axes.outShape ls rs) := by
  obtain ⟨hBatch, hFree, -⟩ := outShape_blocks axes ls rs
  obtain ⟨hLt, hNodup⟩ := @block_append_range axes.lhsBatch.length axes.lhsBatch.length
    (axes.lhsFree ls.rank).length (Nat.le_refl _)
  obtain ⟨hLt', hNodup'⟩ := free_append_batch h.lhs_lt h.lhs_nodup
  refine ⟨by simp [rhsAxes, block], by simp [rhsAxes], hLt', hNodup', ?_, hNodup, hFree.symm,
    hBatch.symm⟩
  intro x hx
  have := hLt x hx
  rw [axes.rank_outShape]
  omega

/-- The order of the left operand's axes in its contribution. -/
def lhsOrder (axes : ContractionAxes) (ls : Shape) : List Nat :=
  axes.lhsBatch ++ axes.lhsFree ls.rank ++ partnersInOrder axes.rhsContract axes.lhsContract

/-- The order of the right operand's axes in its contribution. -/
def rhsOrder (axes : ContractionAxes) (rs : Shape) : List Nat :=
  axes.rhsBatch ++ partnersInOrder axes.lhsContract axes.rhsContract ++ axes.rhsFree rs.rank

theorem isPermutation_lhsOrder (h : axes.Pairable ls rs) :
    IsPermutation (lhsOrder axes ls) ∧ (lhsOrder axes ls).length = ls.rank := by
  apply isPermutation_of_perm _ h.lhs_lt h.lhs_nodup
  exact (perm_partnersInOrder h.contract_length.symm h.rhs_nodup.of_append_left).append_left _

theorem isPermutation_rhsOrder (h : axes.Pairable ls rs) :
    IsPermutation (rhsOrder axes rs) ∧ (rhsOrder axes rs).length = rs.rank := by
  apply isPermutation_of_perm _ h.rhs_lt h.rhs_nodup
  rw [rhsOrder, List.append_assoc, List.append_assoc]
  apply List.Perm.append_left
  apply List.perm_append_comm.trans
  exact (perm_partnersInOrder h.contract_length h.lhs_nodup.of_append_left).append_left _

private theorem lhsFree_lhsAxes (axes : ContractionAxes) (ls rs : Shape) :
    (lhsAxes axes ls rs).lhsFree (axes.outShape ls rs).rank =
      block axes.lhsBatch.length (axes.lhsFree ls.rank).length := by
  rw [axes.rank_outShape]
  exact freeAxes_middle _ _ _

private theorem rhsFree_rhsAxes (axes : ContractionAxes) (ls rs : Shape) :
    (rhsAxes axes ls).rhsFree (axes.outShape ls rs).rank =
      block (axes.lhsBatch.length + (axes.lhsFree ls.rank).length)
        (axes.rhsFree rs.rank).length := by
  rw [axes.rank_outShape]
  exact freeAxes_last _ _ _

theorem outShape_lhsAxes (h : axes.Pairable ls rs) :
    (lhsAxes axes ls rs).outShape (axes.outShape ls rs) rs =
      (lhsOrder axes ls).map ls.extent := by
  obtain ⟨hBatch, hFree, -⟩ := outShape_blocks axes ls rs
  have hContract := (map_contracted_iff h.contract_length.symm h.rhs_lt h.rhs_nodup).mpr
    h.contract_extent.symm
  rw [ContractionAxes.outShape, lhsFree_lhsAxes, lhsOrder, List.map_append, List.map_append,
    ← hBatch, ← hFree, ← hContract]
  rfl

theorem outShape_rhsAxes (h : axes.Pairable ls rs) :
    (rhsAxes axes ls).outShape ls (axes.outShape ls rs) =
      (rhsOrder axes rs).map rs.extent := by
  obtain ⟨-, -, hFree⟩ := outShape_blocks axes ls rs
  have hContract := (map_contracted_iff h.contract_length h.lhs_lt h.lhs_nodup).mpr
    h.contract_extent
  rw [ContractionAxes.outShape, rhsFree_rhsAxes, rhsOrder, List.map_append, List.map_append,
    ← h.batch_extent, ← hFree, ← hContract]
  rfl

/-- A position of the result pairs with one of the right operand iff the position that they
contribute to pairs with that one at that position of the result. -/
private theorem mem_pairs_lhsAxes (h : axes.Pairable ls rs) {q : Position} (hq : q ∈ ls.box)
    (p y : Position) :
    (p, y) ∈ (lhsAxes axes ls rs).pairs (axes.outShape ls rs) rs
        ((lhsOrder axes ls).map q.coord) ↔
      p ∈ (axes.outShape ls rs).box ∧ (q, y) ∈ axes.pairs ls rs p := by
  have hContract := @map_contracted_iff _ _ _ _ h.contract_length.symm h.rhs_lt h.rhs_nodup
    y.coord q.coord
  rw [ContractionAxes.mem_pairs, ContractionAxes.mem_pairs, lhsFree_lhsAxes, lhsOrder,
    List.map_append, List.map_append,
    append_append_eq_iff (by simp [lhsAxes]) (by simp [block])]
  constructor
  · rintro ⟨⟨hp, hy⟩, hFree, hBatch, hBatch', hFree', hPartners⟩
    refine ⟨hp, ⟨hq, hy⟩, (hContract.mp hPartners).symm, hBatch'.symm.trans hBatch, ?_⟩
    rw [position_blocks hp (by simp) (by simp)]
    exact ⟨hBatch', hFree', hFree⟩
  · rintro ⟨hp, ⟨-, hy⟩, hPartners, hBatch, hResult⟩
    rw [position_blocks hp (by simp) (by simp)] at hResult
    obtain ⟨hBatch', hFree', hFree⟩ := hResult
    exact ⟨⟨hp, hy⟩, hFree, hBatch'.trans hBatch, hBatch', hFree', hContract.mpr hPartners.symm⟩

private theorem mem_pairs_rhsAxes (h : axes.Pairable ls rs) {q : Position} (hq : q ∈ rs.box)
    (x p : Position) :
    (x, p) ∈ (rhsAxes axes ls).pairs ls (axes.outShape ls rs)
        ((rhsOrder axes rs).map q.coord) ↔
      p ∈ (axes.outShape ls rs).box ∧ (x, q) ∈ axes.pairs ls rs p := by
  have hContract := @map_contracted_iff _ _ _ _ h.contract_length h.lhs_lt h.lhs_nodup
    x.coord q.coord
  have hLengths := length_contracted h.contract_length h.lhs_lt h.lhs_nodup
  rw [ContractionAxes.mem_pairs, ContractionAxes.mem_pairs, rhsFree_rhsAxes, rhsOrder,
    List.map_append, List.map_append, append_append_eq_iff (by simp [rhsAxes, h.batch_length])
      (by rw [List.length_map, List.length_map]; exact hLengths)]
  -- Both sides say the same of the blocks of coordinates: batch, free and contracted.
  constructor
  · rintro ⟨⟨hx, hp⟩, hFree, hBatch, hBatch', hPartners, hFree'⟩
    refine ⟨hp, ⟨hx, hq⟩, hContract.mp hPartners, hBatch', ?_⟩
    rw [position_blocks hp (by simp) (by simp)]
    exact ⟨hBatch.symm, hFree.symm, hFree'⟩
  · rintro ⟨hp, ⟨hx, -⟩, hPartners, hBatch', hResult⟩
    rw [position_blocks hp (by simp) (by simp)] at hResult
    obtain ⟨hBatch, hFree, hFree'⟩ := hResult
    exact ⟨⟨hx, hp⟩, hFree.symm, hBatch.symm, hBatch', hContract.mpr hPartners, hFree'⟩

/-- A sum over the pairs with one position given, in the other order. -/
private theorem sum_pairs_left {pairs' : Finset (Position × Position)} {box : Finset Position}
    {pairs : Position → Finset (Position × Position)} {q : Position}
    (h : ∀ p y, (p, y) ∈ pairs' ↔ p ∈ box ∧ (q, y) ∈ pairs p) (f : Position → Position → R) :
    ∑ z ∈ pairs', f z.1 z.2 = ∑ p ∈ box, ∑ x ∈ pairs p with x.1 = q, f p x.2 := by
  rw [Finset.sum_sigma']
  refine Finset.sum_nbij' (fun z => ⟨z.1, (q, z.2)⟩) (fun w => (w.1, w.2.2)) ?_ ?_ ?_ ?_ ?_
  · rintro ⟨p, y⟩ hz
    simpa using (h p y).mp hz
  · rintro ⟨p, x, y⟩ hw
    obtain ⟨hp, hxy, rfl⟩ : p ∈ box ∧ (x, y) ∈ pairs p ∧ x = q := by simpa using hw
    exact (h p y).mpr ⟨hp, hxy⟩
  · intro z _
    rfl
  · rintro ⟨p, x, y⟩ hw
    obtain ⟨-, -, rfl⟩ : p ∈ box ∧ (x, y) ∈ pairs p ∧ x = q := by simpa using hw
    rfl
  · intro z _
    rfl

private theorem sum_pairs_right {pairs' : Finset (Position × Position)} {box : Finset Position}
    {pairs : Position → Finset (Position × Position)} {q : Position}
    (h : ∀ x p, (x, p) ∈ pairs' ↔ p ∈ box ∧ (x, q) ∈ pairs p) (f : Position → Position → R) :
    ∑ z ∈ pairs', f z.1 z.2 = ∑ p ∈ box, ∑ x ∈ pairs p with x.2 = q, f x.1 p := by
  rw [Finset.sum_sigma']
  refine Finset.sum_nbij' (fun z => ⟨z.2, (z.1, q)⟩) (fun w => (w.2.1, w.1)) ?_ ?_ ?_ ?_ ?_
  · rintro ⟨x, p⟩ hz
    simpa using (h x p).mp hz
  · rintro ⟨p, x, y⟩ hw
    obtain ⟨hp, hxy, rfl⟩ : p ∈ box ∧ (x, y) ∈ pairs p ∧ y = q := by simpa using hw
    exact (h x p).mpr ⟨hp, hxy⟩
  · intro z _
    rfl
  · rintro ⟨p, x, y⟩ hw
    obtain ⟨-, -, rfl⟩ : p ∈ box ∧ (x, y) ∈ pairs p ∧ y = q := by simpa using hw
    rfl
  · intro z _
    rfl

variable {a b ct : ValueId} {seeds : Position → R}

/-- **The contribution of a contraction to its left operand adds up, for each entry, the products
in which it takes part.** -/
theorem ensures_contractLhs (h : axes.Pairable ls rs)
    (hCt : r.graph.Fills I inputs (axes.outShape ls rs) ct seeds)
    (hb : r.graph.Fills I inputs rs b entries) :
    Ensures (contractLhs axes ls.rank rs.rank b ct) r fun v r' => r.Extends r' ∧
      r'.graph.Fills I inputs ls v fun q => ∑ p ∈ (axes.outShape ls rs).box,
        ∑ x ∈ axes.pairs ls rs p with x.1 = q, seeds p * entries x.2 := by
  obtain ⟨hOrder, hLength⟩ := isPermutation_lhsOrder h
  unfold contractLhs
  apply (ensures_contract (pairable_lhsAxes h) hCt hb).bind_extends
  intro product r₁ _ hProduct
  rw [outShape_lhsAxes h] at hProduct
  apply (ensures_arrange hOrder hLength hProduct).imp_extends
  intro v r₂ _ hv
  apply hv.congr
  intro q hq
  exact sum_pairs_left (mem_pairs_lhsAxes h hq) fun p y => seeds p * entries y

theorem ensures_contractRhs (h : axes.Pairable ls rs)
    (ha : r.graph.Fills I inputs ls a entries)
    (hCt : r.graph.Fills I inputs (axes.outShape ls rs) ct seeds) :
    Ensures (contractRhs axes ls.rank rs.rank a ct) r fun v r' => r.Extends r' ∧
      r'.graph.Fills I inputs rs v fun q => ∑ p ∈ (axes.outShape ls rs).box,
        ∑ x ∈ axes.pairs ls rs p with x.2 = q, entries x.1 * seeds p := by
  obtain ⟨hOrder, hLength⟩ := isPermutation_rhsOrder h
  unfold contractRhs
  apply (ensures_contract (pairable_rhsAxes h) ha hCt).bind_extends
  intro product r₁ _ hProduct
  rw [outShape_rhsAxes h] at hProduct
  apply (ensures_arrange hOrder hLength hProduct).imp_extends
  intro v r₂ _ hv
  apply hv.congr
  intro q hq
  exact sum_pairs_right (mem_pairs_rhsAxes h hq) fun x p => entries x * seeds p

end Contraction

end Reverse

end ArrayEquations
