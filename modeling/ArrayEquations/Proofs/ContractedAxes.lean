import ArrayEquations.Proofs.Axes
import ArrayEquations.Proofs.ContractionPairs
import ArrayEquations.Proofs.FreshIndices

/-!
# ArrayEquations — the indices of contracted axes

A contraction gives its operands the result's indices on their batch and free axes, and
new indices on the contracted axes, the same on both sides. Summing over the new indices
runs through the pairs of operand positions that lead to the result's position, each
once: a pair is known from its contracted coordinates, and contracted axes of extent one,
which get no index, have the coordinate zero on both sides.

## Main results

* `fits_contractedAxes` — an operand's axes carry the indices that they need.
* `sumOver_contraction` — the sum over the new indices is the sum over the pairs.
-/

namespace ArrayEquations

open Position

/-! ## Placed indices -/

theorem placed_eq_of_mem {placements : List (Nat × Option Index)}
    (hNodup : (placements.map (·.1)).Nodup) {a : Nat} {i : Option Index}
    (h : (a, i) ∈ placements) : placed placements a = i := by
  have hReverse : (placements.reverse.map (·.1)).Nodup := by
    rw [List.map_reverse]
    exact List.nodup_reverse.mpr hNodup
  rw [placed, lookup_eq_some_of_nodup hReverse (List.mem_reverse.mpr h)]
  rfl

theorem placed_eq_none {placements : List (Nat × Option Index)} {a : Nat}
    (h : a ∉ placements.map (·.1)) : placed placements a = none := by
  have hNone : placements.reverse.lookup a = none := by
    rw [List.lookup_eq_none_iff]
    intro x hx
    rw [bne_iff_ne]
    rintro rfl
    exact h (List.mem_map.mpr ⟨x, List.mem_reverse.mp hx, rfl⟩)
  rw [placed, hNone]
  rfl

section Operand

variable {operand : Shape} {batch free : List Nat} {offset : Nat}
  {bound : List (Nat × Index)} {axes : Axes} {live : List Index}

/-- What an operand of a contraction needs of the result's axes and the bound indices. -/
structure Placeable (operand : Shape) (batch free : List Nat) (offset : Nat)
    (bound : List (Nat × Index)) (axes : Axes) (live : List Index) : Prop where
  nodup : (batch ++ free ++ bound.map (·.1)).Nodup
  batch_lt : ∀ a ∈ batch, a < operand.rank
  free_lt : ∀ a ∈ free, a < operand.rank
  batch_axis : ∀ k (hk : k < batch.length),
    FitsAxis live (operand.extent batch[k]) (axes.at? k)
  free_axis : ∀ k (hk : k < free.length),
    FitsAxis live (operand.extent free[k]) (axes.at? (offset + k))
  bound_axis : ∀ x ∈ bound, x.1 < operand.rank ∧ operand.extent x.1 ≠ 1 ∧ x.2 ∈ live
  rest : ∀ a < operand.rank, a ∉ batch ++ free ++ bound.map (·.1) → operand.extent a = 1

theorem FitsAxis.unlessSingle_eq {extent : Nat} {i : Option Index}
    (h : FitsAxis live extent i) : ArrayEquations.unlessSingle extent i = i := by
  unfold ArrayEquations.unlessSingle
  split
  · rename_i hOne
    subst hOne
    exact h.eq_none.symm
  · rfl

private theorem keys_fromResult (operand : Shape) (axes : Axes) (chosen : List Nat)
    (offset : Nat) :
    (chosen.zipIdx.map fun (axis, k) =>
      (axis, unlessSingle (operand.extent axis) (axes.at? (offset + k)))).map (·.1) =
      chosen := by
  rw [List.map_map]
  exact List.zipIdx_map_fst ..

namespace Placeable

variable (h : Placeable operand batch free offset bound axes live)
include h

private theorem at?_eq {a : Nat} (ha : a < operand.rank) {i : Option Index}
    (hMem : (a, i) ∈ (batch.zipIdx.map fun (axis, k) =>
        (axis, unlessSingle (operand.extent axis) (axes.at? (0 + k)))) ++
      (free.zipIdx.map fun (axis, k) =>
        (axis, unlessSingle (operand.extent axis) (axes.at? (offset + k)))) ++
      bound.map fun (axis, i) => (axis, some i)) :
    (contractedAxes operand batch free offset bound axes).at? a = i := by
  rw [contractedAxes, Axes.at?_map (by simpa [Shape.axes] using ha)]
  simp only [Shape.axes, List.getElem_range]
  apply placed_eq_of_mem _ hMem
  rw [List.map_append, List.map_append, keys_fromResult, keys_fromResult, List.map_map]
  exact h.nodup

theorem at?_batch {k : Nat} (hk : k < batch.length) :
    (contractedAxes operand batch free offset bound axes).at? batch[k] = axes.at? k := by
  have hMem : (batch[k], unlessSingle (operand.extent batch[k]) (axes.at? (0 + k))) ∈
      batch.zipIdx.map fun (axis, k) =>
        (axis, unlessSingle (operand.extent axis) (axes.at? (0 + k))) := by
    apply List.mem_map.mpr
    exact ⟨(batch[k], k), List.mk_mem_zipIdx_iff_getElem?.mpr (by simp), rfl⟩
  rw [h.at?_eq (h.batch_lt _ (List.getElem_mem hk))
    (List.mem_append_left _ (List.mem_append_left _ hMem)), Nat.zero_add,
    (h.batch_axis k hk).unlessSingle_eq]

theorem at?_free {k : Nat} (hk : k < free.length) :
    (contractedAxes operand batch free offset bound axes).at? free[k] =
      axes.at? (offset + k) := by
  have hMem : (free[k], unlessSingle (operand.extent free[k]) (axes.at? (offset + k))) ∈
      free.zipIdx.map fun (axis, k) =>
        (axis, unlessSingle (operand.extent axis) (axes.at? (offset + k))) := by
    apply List.mem_map.mpr
    exact ⟨(free[k], k), List.mk_mem_zipIdx_iff_getElem?.mpr (by simp), rfl⟩
  rw [h.at?_eq (h.free_lt _ (List.getElem_mem hk))
    (List.mem_append_left _ (List.mem_append_right _ hMem)),
    (h.free_axis k hk).unlessSingle_eq]

theorem at?_bound {x : Nat × Index} (hx : x ∈ bound) :
    (contractedAxes operand batch free offset bound axes).at? x.1 = some x.2 := by
  apply h.at?_eq (h.bound_axis x hx).1
  exact List.mem_append_right _ (List.mem_map.mpr ⟨x, hx, rfl⟩)

omit h in
theorem at?_rest {a : Nat} (ha : a < operand.rank)
    (hRest : a ∉ batch ++ free ++ bound.map (·.1)) :
    (contractedAxes operand batch free offset bound axes).at? a = none := by
  rw [contractedAxes, Axes.at?_map (by simpa [Shape.axes] using ha)]
  simp only [Shape.axes, List.getElem_range]
  apply placed_eq_none
  rw [List.map_append, List.map_append, keys_fromResult, keys_fromResult, List.map_map]
  exact hRest

/-- The operand's axes carry the indices that they need. -/
theorem fits_contractedAxes :
    (contractedAxes operand batch free offset bound axes).Fits live operand := by
  refine ⟨by simp [contractedAxes, Shape.axes], ?_⟩
  intro a ha
  by_cases hMem : a ∈ batch ++ free ++ bound.map (·.1)
  · rcases List.mem_append.mp hMem with hMem | hBound
    · rcases List.mem_append.mp hMem with hBatch | hFree
      · obtain ⟨k, hk, rfl⟩ := List.getElem_of_mem hBatch
        rw [h.at?_batch hk]
        exact h.batch_axis k hk
      · obtain ⟨k, hk, rfl⟩ := List.getElem_of_mem hFree
        rw [h.at?_free hk]
        exact h.free_axis k hk
    · obtain ⟨x, hx, rfl⟩ := List.mem_map.mp hBound
      rw [h.at?_bound hx]
      obtain ⟨-, hExtent, hLive⟩ := h.bound_axis x hx
      exact .of_ne_one hExtent ⟨x.2, hLive, rfl⟩
  · rw [at?_rest ha hMem, h.rest a ha hMem]
    exact .of_one rfl

theorem map_coord_batch (τ : Assignment) :
    batch.map ((contractedAxes operand batch free offset bound axes).position τ).coord =
      tabulate batch.length (axes.position τ).coord := by
  apply map_coord_eq_tabulate
  intro k hk
  rw [Axes.coord_position, Axes.coord_position, h.at?_batch hk]

theorem map_coord_free (τ : Assignment) :
    free.map ((contractedAxes operand batch free offset bound axes).position τ).coord =
      tabulate free.length fun k => (axes.position τ).coord (offset + k) := by
  apply map_coord_eq_tabulate
  intro k hk
  rw [Axes.coord_position, Axes.coord_position, h.at?_free hk]

theorem coord_bound (τ : Assignment) {x : Nat × Index} (hx : x ∈ bound) :
    ((contractedAxes operand batch free offset bound axes).position τ).coord x.1 =
      τ x.2 := by
  rw [Axes.coord_position, h.at?_bound hx]
  rfl

/-- The position lies in the operand as soon as the coordinates that it is made of are below
the operand's extents. -/
theorem position_mem_box {τ : Assignment}
    (hBatch : ∀ k (hk : k < batch.length),
      (axes.position τ).coord k < operand.extent batch[k])
    (hFree : ∀ k (hk : k < free.length),
      (axes.position τ).coord (offset + k) < operand.extent free[k])
    (hBound : ∀ x ∈ bound, τ x.2 < operand.extent x.1) :
    (contractedAxes operand batch free offset bound axes).position τ ∈ operand.box := by
  rw [Shape.mem_box]
  refine ⟨h.fits_contractedAxes.length_position τ, ?_⟩
  intro a ha
  rw [Axes.coord_position]
  -- An axis takes its index from the batch, the free axes or the pairs, or it has extent one.
  by_cases hMem : a ∈ batch ++ free ++ bound.map (·.1)
  · rcases List.mem_append.mp hMem with hMem | hMem
    · rcases List.mem_append.mp hMem with hMem | hMem
      · obtain ⟨k, hk, rfl⟩ := List.getElem_of_mem hMem
        rw [h.at?_batch hk, ← Axes.coord_position]
        exact hBatch k hk
      · obtain ⟨k, hk, rfl⟩ := List.getElem_of_mem hMem
        rw [h.at?_free hk, ← Axes.coord_position]
        exact hFree k hk
    · obtain ⟨x, hx, rfl⟩ := List.mem_map.mp hMem
      rw [h.at?_bound hx]
      exact hBound x hx
  · rw [at?_rest ha hMem, h.rest a ha hMem]
    exact Nat.one_pos

end Placeable

end Operand

/-! ## Both operands -/

/-- A contraction binds symbols that the scope hands out. -/
theorem handsOut_contractedIndices (ls rs : Shape) (paired : List (Nat × Nat))
    (scope : IndexScope) :
    scope.HandsOut ((contractedIndices ls rs paired scope).1.map (·.2.2))
      (contractedIndices ls rs paired scope).2 := by
  induction paired generalizing scope with
  | nil => exact .nil scope
  | cons x rest ih =>
    obtain ⟨l, r⟩ := x
    rw [contractedIndices]
    split
    · exact ih scope
    · exact .cons (ih scope.fresh.2)

theorem contractedIndices_opens (ls rs : Shape) (paired : List (Nat × Nat))
    (scope : IndexScope) (hLetters : scope.letters ≠ []) :
    scope.Opens ((contractedIndices ls rs paired scope).1.map (·.2.2))
      (contractedIndices ls rs paired scope).2 :=
  (handsOut_contractedIndices ls rs paired scope).opens hLetters

/-- The pairs of axes that get an index. -/
theorem map_contractedIndices (ls rs : Shape) (paired : List (Nat × Nat))
    (scope : IndexScope) :
    (contractedIndices ls rs paired scope).1.map (fun x => (x.1, x.2.1)) =
      paired.filter fun (l, r) => !(ls.extent l == 1 || rs.extent r == 1) := by
  induction paired generalizing scope with
  | nil => rfl
  | cons x rest ih =>
    obtain ⟨l, r⟩ := x
    rw [contractedIndices]
    split
    · rename_i hSingle
      rw [List.filter_cons_of_neg (by simpa [or_iff_not_imp_left] using hSingle)]
      exact ih scope
    · rename_i hSingle
      rw [List.filter_cons_of_pos (by simpa using hSingle)]
      exact congrArg ((l, r) :: ·) (ih scope.fresh.2)

/-- The pairs of contracted axes that a contraction binds an index for. -/
structure BindsPairs (axes : ContractionAxes) (ls rs : Shape) (scope : IndexScope)
    (pairs : List (Nat × Nat × Index)) (inner : IndexScope) : Prop where
  opens : scope.Opens (pairs.map (·.2.2)) inner
  mem : ∀ x ∈ pairs, (x.1, x.2.1) ∈ axes.lhsContract.zip axes.rhsContract ∧
    ls.extent x.1 ≠ 1 ∧ rs.extent x.2.1 ≠ 1
  cover : ∀ y ∈ axes.lhsContract.zip axes.rhsContract,
    ls.extent y.1 = 1 ∨ rs.extent y.2 = 1 ∨ ∃ x ∈ pairs, x.1 = y.1 ∧ x.2.1 = y.2
  lhs_sublist : (pairs.map (·.1)).Sublist axes.lhsContract
  rhs_sublist : (pairs.map (·.2.1)).Sublist axes.rhsContract

theorem bindsPairs_contractedIndices {axes : ContractionAxes} {ls rs : Shape}
    (h : axes.Pairable ls rs) {scope : IndexScope} (hLetters : scope.letters ≠ []) :
    BindsPairs axes ls rs scope
      (contractedIndices ls rs (axes.lhsContract.zip axes.rhsContract) scope).1
      (contractedIndices ls rs (axes.lhsContract.zip axes.rhsContract) scope).2 := by
  have hMap := map_contractedIndices ls rs (axes.lhsContract.zip axes.rhsContract) scope
  have hOpens := contractedIndices_opens ls rs (axes.lhsContract.zip axes.rhsContract) scope
    hLetters
  generalize contractedIndices ls rs (axes.lhsContract.zip axes.rhsContract) scope = result
    at hMap hOpens ⊢
  obtain ⟨pairs, inner⟩ := result
  simp only at hMap hOpens ⊢
  refine ⟨hOpens, ?_, ?_, ?_, ?_⟩
  · intro x hx
    have hPair : (x.1, x.2.1) ∈ pairs.map fun x => (x.1, x.2.1) :=
      List.mem_map.mpr ⟨x, hx, rfl⟩
    rw [hMap, List.mem_filter] at hPair
    simpa [not_or] using hPair
  · intro y hy
    -- A pair without an index was left out, and that is done for an extent one.
    by_cases hSingle : ls.extent y.1 = 1 ∨ rs.extent y.2 = 1
    · rcases hSingle with hl | hr
      · exact Or.inl hl
      · exact Or.inr (Or.inl hr)
    · right
      right
      have hPair : y ∈ pairs.map fun x => (x.1, x.2.1) := by
        rw [hMap, List.mem_filter]
        exact ⟨hy, by simpa [not_or] using hSingle⟩
      obtain ⟨x, hx, rfl⟩ := List.mem_map.mp hPair
      exact ⟨x, hx, rfl, rfl⟩
  · have hFirst : pairs.map (·.1) = (pairs.map fun x => (x.1, x.2.1)).map (·.1) := by
      rw [List.map_map]
      rfl
    rw [hFirst, hMap]
    exact (List.filter_sublist.map _).trans (by rw [h.map_fst_contract])
  · have hSecond : pairs.map (·.2.1) = (pairs.map fun x => (x.1, x.2.1)).map (·.2) := by
      rw [List.map_map]
      rfl
    rw [hSecond, hMap]
    exact (List.filter_sublist.map _).trans (by rw [h.map_snd_contract])

section Contraction

variable {axes : ContractionAxes} {ls rs : Shape} {scope inner : IndexScope}
  {pairs : List (Nat × Nat × Index)} {out : Axes}

private theorem nodup_keys {contract batch : List Nat} {rank : Nat}
    (hNodup : (contract ++ batch).Nodup) {keys : List Nat} (hKeys : keys.Sublist contract) :
    (batch ++ freeAxes rank contract batch ++ keys).Nodup := by
  obtain ⟨hContract, hBatch, hDisjoint⟩ := List.nodup_append.mp hNodup
  refine List.nodup_append.mpr ⟨List.nodup_append.mpr ⟨hBatch, nodup_freeAxes _ _ _, ?_⟩,
    hContract.sublist hKeys, ?_⟩
  · rintro a ha b hb rfl
    exact (mem_freeAxes.mp hb).2.2 ha
  · rintro a ha b hb rfl
    rcases List.mem_append.mp ha with hMem | hMem
    · exact hDisjoint a (hKeys.subset hb) a hMem rfl
    · exact (mem_freeAxes.mp hMem).2.1 (hKeys.subset hb)

theorem contract_extent_eq (h : axes.Pairable ls rs) {x : Nat × Nat}
    (hx : x ∈ axes.lhsContract.zip axes.rhsContract) : ls.extent x.1 = rs.extent x.2 :=
  (ContractionAxes.forall_zip_iff_map_eq h.contract_length).mpr h.contract_extent x hx

theorem batch_extent_eq (h : axes.Pairable ls rs) {k : Nat} (hl : k < axes.lhsBatch.length)
    (hr : k < axes.rhsBatch.length) :
    ls.extent axes.lhsBatch[k] = rs.extent axes.rhsBatch[k] := by
  have hMem : (axes.lhsBatch[k], axes.rhsBatch[k]) ∈ axes.lhsBatch.zip axes.rhsBatch := by
    apply List.mem_iff_getElem.mpr
    exact ⟨k, by rw [List.length_zip]; omega, List.getElem_zip⟩
  exact (ContractionAxes.forall_zip_iff_map_eq h.batch_length).mpr h.batch_extent _ hMem

theorem exists_partner (h : axes.Pairable ls rs) {l : Nat} (hl : l ∈ axes.lhsContract) :
    ∃ r, (l, r) ∈ axes.lhsContract.zip axes.rhsContract := by
  rw [← h.map_fst_contract] at hl
  obtain ⟨x, hx, rfl⟩ := List.mem_map.mp hl
  exact ⟨x.2, hx⟩

theorem exists_partner' (h : axes.Pairable ls rs) {r : Nat} (hr : r ∈ axes.rhsContract) :
    ∃ l, (l, r) ∈ axes.lhsContract.zip axes.rhsContract := by
  rw [← h.map_snd_contract] at hr
  obtain ⟨x, hx, rfl⟩ := List.mem_map.mp hr
  exact ⟨x.1, hx⟩

/-- The left operand can be given its indices. -/
theorem placeable_lhs (h : axes.Pairable ls rs)
    (hOut : out.Fits scope.live (axes.outShape ls rs))
    (hBinds : BindsPairs axes ls rs scope pairs inner) :
    Placeable ls axes.lhsBatch (axes.lhsFree ls.rank) axes.lhsBatch.length
      (pairs.map fun x => (x.1, x.2.2)) out inner.live := by
  have hKeys : (pairs.map fun x => (x.1, x.2.2)).map (·.1) = pairs.map (·.1) := by
    rw [List.map_map]
    rfl
  have hRank := axes.rank_outShape ls rs
  have hOut' := hOut.mono hBinds.opens.subset
  refine ⟨?_, ?_, ?_, ?_, ?_, ?_, ?_⟩
  · rw [hKeys]
    exact nodup_keys h.lhs_nodup hBinds.lhs_sublist
  · intro a ha
    exact h.lhs_lt a (List.mem_append_right _ ha)
  · intro a ha
    exact (mem_freeAxes.mp ha).1
  · intro k hk
    rw [← ContractionAxes.extent_outShape_batch rs hk]
    exact hOut'.axis k (by omega)
  · intro k hk
    rw [← ContractionAxes.extent_outShape_lhsFree rs hk]
    exact hOut'.axis _ (by omega)
  · intro y hy
    obtain ⟨x, hx, rfl⟩ := List.mem_map.mp hy
    obtain ⟨hPair, hExtent, -⟩ := hBinds.mem x hx
    have hl := (List.of_mem_zip hPair).1
    exact ⟨h.lhs_lt _ (List.mem_append_left _ hl), hExtent,
      hBinds.opens.mem_live (List.mem_map.mpr ⟨x, hx, rfl⟩)⟩
  · intro a ha hNot
    rw [hKeys, List.mem_append, List.mem_append, not_or, not_or] at hNot
    obtain ⟨⟨hBatch, hFree⟩, hBound⟩ := hNot
    -- An axis without a place is contracted, and has extent one like its partner.
    have hContract : a ∈ axes.lhsContract := by
      by_contra hNotContract
      exact hFree (mem_freeAxes.mpr ⟨ha, hNotContract, hBatch⟩)
    obtain ⟨r, hPair⟩ := exists_partner h hContract
    rcases hBinds.cover _ hPair with hl | hr | ⟨x, hx, hEq, -⟩
    · exact hl
    · rw [contract_extent_eq h hPair, hr]
    · exact absurd (List.mem_map.mpr ⟨x, hx, hEq⟩) hBound

/-- The right operand can be given its indices. -/
theorem placeable_rhs (h : axes.Pairable ls rs)
    (hOut : out.Fits scope.live (axes.outShape ls rs))
    (hBinds : BindsPairs axes ls rs scope pairs inner) :
    Placeable rs axes.rhsBatch (axes.rhsFree rs.rank)
      (axes.lhsBatch.length + (axes.lhsFree ls.rank).length)
      (pairs.map fun x => (x.2.1, x.2.2)) out inner.live := by
  have hKeys : (pairs.map fun x => (x.2.1, x.2.2)).map (·.1) = pairs.map (·.2.1) := by
    rw [List.map_map]
    rfl
  have hRank := axes.rank_outShape ls rs
  have hBatchLength := h.batch_length
  have hOut' := hOut.mono hBinds.opens.subset
  refine ⟨?_, ?_, ?_, ?_, ?_, ?_, ?_⟩
  · rw [hKeys]
    exact nodup_keys h.rhs_nodup hBinds.rhs_sublist
  · intro a ha
    exact h.rhs_lt a (List.mem_append_right _ ha)
  · intro a ha
    exact (mem_freeAxes.mp ha).1
  · intro k hk
    have hk' : k < axes.lhsBatch.length := by omega
    rw [← batch_extent_eq h hk' hk, ← ContractionAxes.extent_outShape_batch rs hk']
    exact hOut'.axis k (by omega)
  · intro k hk
    rw [← ContractionAxes.extent_outShape_rhsFree ls hk]
    exact hOut'.axis _ (by omega)
  · intro y hy
    obtain ⟨x, hx, rfl⟩ := List.mem_map.mp hy
    obtain ⟨hPair, -, hExtent⟩ := hBinds.mem x hx
    have hr := (List.of_mem_zip hPair).2
    exact ⟨h.rhs_lt _ (List.mem_append_left _ hr), hExtent,
      hBinds.opens.mem_live (List.mem_map.mpr ⟨x, hx, rfl⟩)⟩
  · intro a ha hNot
    rw [hKeys, List.mem_append, List.mem_append, not_or, not_or] at hNot
    obtain ⟨⟨hBatch, hFree⟩, hBound⟩ := hNot
    -- What is left is a contracted axis without an index, so one of the pair has extent one.
    have hContract : a ∈ axes.rhsContract := by
      by_contra hNotContract
      exact hFree (mem_freeAxes.mpr ⟨ha, hNotContract, hBatch⟩)
    obtain ⟨l, hPair⟩ := exists_partner' h hContract
    rcases hBinds.cover _ hPair with hl | hr | ⟨x, hx, -, hEq⟩
    · rw [← contract_extent_eq h hPair, hl]
    · exact hr
    · exact absurd (List.mem_map.mpr ⟨x, hx, hEq⟩) hBound

/-- The positions at which the operands are read. -/
def operandPositions (axes : ContractionAxes) (ls rs : Shape)
    (pairs : List (Nat × Nat × Index)) (out : Axes) (τ : Assignment) : Position × Position :=
  ((contractedAxes ls axes.lhsBatch (axes.lhsFree ls.rank) axes.lhsBatch.length
      (pairs.map fun x => (x.1, x.2.2)) out).position τ,
    (contractedAxes rs axes.rhsBatch (axes.rhsFree rs.rank)
      (axes.lhsBatch.length + (axes.lhsFree ls.rank).length)
      (pairs.map fun x => (x.2.1, x.2.2)) out).position τ)

theorem coord_operandPositions (h : axes.Pairable ls rs)
    (hOut : out.Fits scope.live (axes.outShape ls rs))
    (hBinds : BindsPairs axes ls rs scope pairs inner) {x : Nat × Nat × Index}
    (hx : x ∈ pairs) (τ : Assignment) :
    (operandPositions axes ls rs pairs out τ).1.coord x.1 = τ x.2.2 ∧
      (operandPositions axes ls rs pairs out τ).2.coord x.2.1 = τ x.2.2 := by
  constructor
  · exact (placeable_lhs h hOut hBinds).coord_bound τ (List.mem_map.mpr ⟨x, hx, rfl⟩)
  · exact (placeable_rhs h hOut hBinds).coord_bound τ (List.mem_map.mpr ⟨x, hx, rfl⟩)

/-- The operands are read at a pair of positions that leads to the result's position. -/
theorem operandPositions_mem_pairs (h : axes.Pairable ls rs)
    (hOut : out.Fits scope.live (axes.outShape ls rs))
    (hBinds : BindsPairs axes ls rs scope pairs inner) {τ : Assignment}
    (hMem : out.position τ ∈ (axes.outShape ls rs).box)
    (hBound : ∀ x ∈ pairs, τ x.2.2 < ls.extent x.1) :
    operandPositions axes ls rs pairs out τ ∈ axes.pairs ls rs (out.position τ) := by
  have hLhs := placeable_lhs h hOut hBinds
  have hRhs := placeable_rhs h hOut hBinds
  have hRank := axes.rank_outShape ls rs
  have hBatchLength := h.batch_length
  -- The extents of the result bound the free and batch axes, and the pairs bound the contracted
  -- ones.
  have hLeft : (operandPositions axes ls rs pairs out τ).1 ∈ ls.box := by
    apply hLhs.position_mem_box
    · intro k hk
      rw [← ContractionAxes.extent_outShape_batch rs hk]
      exact Shape.coord_lt hMem (by omega)
    · intro k hk
      rw [← ContractionAxes.extent_outShape_lhsFree rs hk]
      exact Shape.coord_lt hMem (by omega)
    · intro y hy
      obtain ⟨x, hx, rfl⟩ := List.mem_map.mp hy
      exact hBound x hx
  have hRight : (operandPositions axes ls rs pairs out τ).2 ∈ rs.box := by
    apply hRhs.position_mem_box
    · intro k hk
      have hk' : k < axes.lhsBatch.length := by omega
      rw [← batch_extent_eq h hk' hk, ← ContractionAxes.extent_outShape_batch rs hk']
      exact Shape.coord_lt hMem (by omega)
    · intro k hk
      rw [← ContractionAxes.extent_outShape_rhsFree ls hk]
      exact Shape.coord_lt hMem (by omega)
    · intro y hy
      obtain ⟨x, hx, rfl⟩ := List.mem_map.mp hy
      have hExtent := contract_extent_eq h (hBinds.mem x hx).1
      simp only at hExtent ⊢
      rw [← hExtent]
      exact hBound x hx
  have hLhsBatch : axes.lhsBatch.map (operandPositions axes ls rs pairs out τ).1.coord =
      tabulate axes.lhsBatch.length (out.position τ).coord := hLhs.map_coord_batch τ
  have hRhsBatch : axes.rhsBatch.map (operandPositions axes ls rs pairs out τ).2.coord =
      tabulate axes.rhsBatch.length (out.position τ).coord := hRhs.map_coord_batch τ
  have hLhsFree : (axes.lhsFree ls.rank).map
      (operandPositions axes ls rs pairs out τ).1.coord = _ := hLhs.map_coord_free τ
  have hRhsFree : (axes.rhsFree rs.rank).map
      (operandPositions axes ls rs pairs out τ).2.coord = _ := hRhs.map_coord_free τ
  refine ContractionAxes.mem_pairs.mpr ⟨⟨hLeft, hRight⟩, ?_, ?_, ?_⟩
  · -- Contracted axes: bound ones carry the same index, the others have extent one.
    rw [← ContractionAxes.forall_zip_iff_map_eq h.contract_length]
    intro y hy
    have hExtent := contract_extent_eq h hy
    rcases hBinds.cover y hy with hl | hr | ⟨x, hx, hFirst, hSecond⟩
    · rw [Shape.coord_eq_zero hLeft hl, Shape.coord_eq_zero hRight (hExtent ▸ hl)]
    · rw [Shape.coord_eq_zero hLeft (hExtent.trans hr), Shape.coord_eq_zero hRight hr]
    · obtain ⟨hl, hr⟩ := coord_operandPositions h hOut hBinds hx τ
      rw [← hFirst, ← hSecond, hl, hr]
  · rw [hLhsBatch, hRhsBatch, hBatchLength]
  · rw [hLhsBatch, hLhsFree, hRhsFree, ← tabulate_add, ← tabulate_add]
    apply tabulate_coord
    rw [hOut.length_position, hRank]

/-- A pair of positions is known from the coordinates on the axes that get an index. -/
theorem pairs_ext_of_bound (h : axes.Pairable ls rs)
    (hBinds : BindsPairs axes ls rs scope pairs inner) {p : Position}
    {y z : Position × Position} (hy : y ∈ axes.pairs ls rs p) (hz : z ∈ axes.pairs ls rs p)
    (hEq : ∀ x ∈ pairs, y.1.coord x.1 = z.1.coord x.1) : y = z := by
  apply ContractionAxes.pairs_ext hy hz
  apply List.map_congr_left
  intro l hl
  have hyBox := (ContractionAxes.mem_pairs.mp hy).1.1
  have hzBox := (ContractionAxes.mem_pairs.mp hz).1.1
  obtain ⟨r, hPair⟩ := exists_partner h hl
  have hExtent := contract_extent_eq h hPair
  rcases hBinds.cover _ hPair with hOne | hOne | ⟨x, hx, hFirst, -⟩
  · rw [Shape.coord_eq_zero hyBox hOne, Shape.coord_eq_zero hzBox hOne]
  · have hOne := hExtent.trans hOne
    rw [Shape.coord_eq_zero hyBox hOne, Shape.coord_eq_zero hzBox hOne]
  · simp only at hFirst
    rw [← hFirst]
    exact hEq x hx

/-- **The sum over the new indices is the sum over the pairs of operand positions.** The body
need only be known at assignments that give such a pair. -/
theorem sumOver_contraction {R : Type*} [AddCommMonoid R] (h : axes.Pairable ls rs)
    (hOut : out.Fits scope.live (axes.outShape ls rs))
    (hBinds : BindsPairs axes ls rs scope pairs inner) {σ : Assignment}
    (hMem : out.position σ ∈ (axes.outShape ls rs).box) {body : Assignment → R}
    {F : Position × Position → R}
    (hBody : ∀ τ : Assignment, operandPositions axes ls rs pairs out τ ∈
        axes.pairs ls rs (out.position σ) →
      body τ = F (operandPositions axes ls rs pairs out τ)) :
    sumOver ((pairs.map (·.2.2)).zip (pairs.map fun x => ls.extent x.1)) body σ =
      ∑ x ∈ axes.pairs ls rs (out.position σ), F x := by
  -- The new indices do not occur among those of the result.
  have hSame : ∀ c, out.position (assign (pairs.map (·.2.2)) c σ) = out.position σ := by
    intro c
    apply hOut.position_congr
    intro i hi
    exact assign_of_not_mem fun hBound => hBinds.opens.fresh i hBound hi
  have hAssign : ∀ c ∈ Shape.box (pairs.map fun x => ls.extent x.1),
      pairs.map (fun x => assign (pairs.map (·.2.2)) c σ x.2.2) = c := by
    intro c hc
    have hLength : c.length = (pairs.map (·.2.2)).length := by
      rw [Shape.length_of_mem_box hc]
      simp [Shape.rank]
    have hMap := map_assign (σ := σ) hBinds.opens.nodup hLength
    rwa [List.map_map] at hMap
  have hPairs : ∀ c ∈ Shape.box (pairs.map fun x => ls.extent x.1),
      operandPositions axes ls rs pairs out (assign (pairs.map (·.2.2)) c σ) ∈
        axes.pairs ls rs (out.position σ) := by
    intro c hc
    rw [← hSame c]
    apply operandPositions_mem_pairs h hOut hBinds (by rw [hSame]; exact hMem)
    intro x hx
    obtain ⟨k, hk, rfl⟩ := List.getElem_of_mem hx
    have hCoord : assign (pairs.map (·.2.2)) c σ pairs[k].2.2 = coord c k := by
      conv_rhs => rw [← hAssign c hc]
      simp [coord, List.getD, hk]
    have hLt := Shape.coord_lt hc (show k < Shape.rank _ by simpa [Shape.rank] using hk)
    rwa [Shape.extent_map hk, ← hCoord] at hLt
  have hBox : ∀ y ∈ axes.pairs ls rs (out.position σ),
      (pairs.map fun x => y.1.coord x.1) ∈ Shape.box (pairs.map fun x => ls.extent x.1) := by
    intro y hy
    have hLeft := (ContractionAxes.mem_pairs.mp hy).1.1
    rw [show (pairs.map fun x => y.1.coord x.1) = (pairs.map (·.1)).map y.1.coord by
        rw [List.map_map]; rfl,
      show (pairs.map fun x => ls.extent x.1) = (pairs.map (·.1)).map ls.extent by
        rw [List.map_map]; rfl]
    apply Shape.map_coord_mem_box hLeft
    intro a ha
    exact h.lhs_lt a (List.mem_append_left _ (hBinds.lhs_sublist.subset ha))
  -- Coordinates of the new indices and pairs of positions determine each other.
  rw [sumOver_eq_sum_box (by simp)]
  apply Finset.sum_nbij'
    (fun c => operandPositions axes ls rs pairs out (assign (pairs.map (·.2.2)) c σ))
    (fun y => pairs.map fun x => y.1.coord x.1)
  · exact hPairs
  · exact hBox
  · intro c hc
    conv_rhs => rw [← hAssign c hc]
    apply List.map_congr_left
    intro x hx
    exact (coord_operandPositions h hOut hBinds hx _).1
  · intro y hy
    apply pairs_ext_of_bound h hBinds (hPairs _ (hBox y hy)) hy
    intro x hx
    rw [(coord_operandPositions h hOut hBinds hx _).1]
    exact List.map_inj_left.mp (hAssign _ (hBox y hy)) x hx
  · intro c hc
    exact hBody _ (hPairs c hc)

end Contraction

end ArrayEquations
