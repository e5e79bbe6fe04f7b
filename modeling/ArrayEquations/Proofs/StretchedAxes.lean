import ArrayEquations.Derivative.Reverse
import ArrayEquations.Proofs.Permutation
import ArrayEquations.Proofs.Recording
import Mathlib.Data.List.Sort

/-!
# ArrayEquations — undoing a stretch

A stretched operand is read at several positions of the result, so its cotangent adds up
what those positions receive. The recorded form sums over the axes that the operand lacks
or has with extent one only, and brings back its extents of one by a reshape.

Implicit broadcasting is the stretch along the last axes, so one argument serves both.

## Main results

* `Shape.sum_stretched` — the sum over the stretched axes adds up all positions that read
  an entry.
* `surplusAxes_eq` — the surplus axes of an implicit stretch are its stretched axes.
* `ensures_unbroadcast` — what is recorded to undo an implicit stretch adds up the entries that a
  stretch would repeat.
-/

namespace ArrayEquations

open Position

/-! ## Kept axes -/

/-- The axes of the operand that are not stretched. -/
def unstretched (s : Shape) (dims : List Nat) (out : Shape) (k : Nat) : Bool :=
  !(s.extent k == 1 && out.extent (dims.getD k 0) != 1)

section

variable {s out : Shape} {dims : List Nat}

private theorem unstretched_iff {k : Nat} :
    unstretched s dims out k = true ↔ (s.extent k = 1 → out.extent (dims.getD k 0) = 1) := by
  rw [unstretched, Bool.not_eq_true', Bool.and_eq_false_iff, beq_eq_false_iff_ne,
    bne_eq_false_iff_eq]
  tauto

private theorem getD_eq_getElem (h : s.Stretches dims out) {k : Nat} (hk : k < s.rank) :
    ∃ hLt : k < dims.length, dims.getD k 0 = dims[k] := by
  have hLt : k < dims.length := h.length_eq ▸ hk
  exact ⟨hLt, by simp [List.getD, hLt]⟩

private theorem idxOf?_getD (h : s.Stretches dims out) {k : Nat} (hk : k < s.rank) :
    dims.idxOf? (dims.getD k 0) = some k := by
  obtain ⟨hLt, hGet⟩ := getD_eq_getElem h hk
  have hNodup : dims.Nodup := h.increasing.imp Nat.ne_of_lt
  rw [hGet, idxOf?_of_mem (List.getElem_mem hLt), hNodup.idxOf_getElem k hLt]

private theorem getD_of_idxOf? (h : s.Stretches dims out) {axis k : Nat}
    (hk : dims.idxOf? axis = some k) : k < s.rank ∧ dims.getD k 0 = axis := by
  have hMem : axis ∈ dims := List.isSome_idxOf?.mp (by rw [hk]; rfl)
  rw [idxOf?_of_mem hMem] at hk
  obtain rfl := Option.some.inj hk
  have hLt : dims.idxOf axis < dims.length := List.idxOf_lt_length_of_mem hMem
  refine ⟨h.length_eq ▸ hLt, ?_⟩
  simp [List.getD, hLt]

/-- An axis of the result is kept iff it is that of an operand's axis that is not stretched. -/
private theorem contains_stretchedAxes (h : s.Stretches dims out) {axis : Nat}
    (hAxis : axis < out.rank) :
    (!(Reverse.stretchedAxes s dims out).contains axis) = true ↔
      ∃ k < s.rank, unstretched s dims out k = true ∧ dims.getD k 0 = axis := by
  rw [Bool.not_eq_true', ← Bool.not_eq_true, List.contains_iff_mem, Reverse.stretchedAxes,
    List.mem_filter, not_and]
  have hMem : axis ∈ out.axes := List.mem_range.mpr hAxis
  -- An axis of the result without an axis of `s` is new, and so it is stretched.
  cases hIdx : dims.idxOf? axis with
  | none =>
    constructor
    · intro hNot
      exact absurd rfl (hNot hMem)
    · rintro ⟨k, hk, -, rfl⟩
      rw [idxOf?_getD h hk] at hIdx
      exact absurd hIdx (by simp)
  | some k =>
    obtain ⟨hk, rfl⟩ := getD_of_idxOf? h hIdx
    constructor
    · intro hNot
      exact ⟨k, hk, unstretched_iff.mpr (by simpa using hNot hMem), rfl⟩
    · rintro ⟨k', hk', hKeep, hEq⟩ -
      obtain rfl : k' = k := by
        rw [← hEq, idxOf?_getD h hk'] at hIdx
        exact Option.some.inj hIdx
      simpa using unstretched_iff.mp hKeep

/-- The kept axes of the result, in order, are those of the operand's axes that are not
stretched. -/
theorem kept_eq (h : s.Stretches dims out) :
    out.axes.filter (fun axis => !(Reverse.stretchedAxes s dims out).contains axis) =
      (s.axes.filter (unstretched s dims out)).map (dims.getD · 0) := by
  -- Both lists increase, so it is enough that they have the same members.
  apply List.Pairwise.eq_of_mem_iff (r := (· < ·))
  · exact List.pairwise_lt_range.filter _
  · rw [List.pairwise_map]
    apply List.Pairwise.filter
    apply List.pairwise_lt_range.imp_of_mem
    intro k l hk hl hLt
    obtain ⟨hk', hGetK⟩ := getD_eq_getElem h (List.mem_range.mp hk)
    obtain ⟨hl', hGetL⟩ := getD_eq_getElem h (List.mem_range.mp hl)
    rw [hGetK, hGetL]
    exact List.pairwise_iff_getElem.mp h.increasing k l hk' hl' hLt
  · intro axis
    rw [List.mem_filter, List.mem_map]
    constructor
    · rintro ⟨hMem, hKept⟩
      obtain ⟨k, hk, hKeep, hEq⟩ := (contains_stretchedAxes h (List.mem_range.mp hMem)).mp hKept
      exact ⟨k, List.mem_filter.mpr ⟨List.mem_range.mpr hk, hKeep⟩, hEq⟩
    · rintro ⟨k, hk, rfl⟩
      obtain ⟨hMem, hKeep⟩ := List.mem_filter.mp hk
      have hk' := List.mem_range.mp hMem
      have hLt := h.getD_lt hk'
      exact ⟨List.mem_range.mpr hLt, (contains_stretchedAxes h hLt).mpr ⟨k, hk', hKeep, rfl⟩⟩

/-- Only extents of one are stretched. -/
private theorem extent_of_stretched {k : Nat} (h : unstretched s dims out k = false) :
    s.extent k = 1 := by
  by_contra hNot
  rw [unstretched_iff.mpr fun hOne => absurd hOne hNot] at h
  exact absurd h (by simp)

/-- The extents along the kept axes are those of the operand that are not stretched. -/
theorem map_extent_kept (h : s.Stretches dims out) :
    (out.axes.filter (fun axis => !(Reverse.stretchedAxes s dims out).contains axis)).map
        out.extent =
      (s.axes.filter (unstretched s dims out)).map s.extent := by
  rw [kept_eq h, List.map_map]
  apply List.map_congr_left
  intro k hk
  obtain ⟨hMem, hKeep⟩ := List.mem_filter.mp hk
  show out.extent (dims.getD k 0) = s.extent k
  rcases h.extent k (List.mem_range.mp hMem) with hOne | hEq
  · rw [hOne, unstretched_iff.mp hKeep hOne]
  · exact hEq.symm

/-- A position of the result reads an entry iff they agree along the kept axes. -/
theorem map_coord_kept_iff (h : s.Stretches dims out) {p q : Position} (hp : p ∈ out.box)
    (hq : q ∈ s.box) :
    (out.axes.filter (fun axis => !(Reverse.stretchedAxes s dims out).contains axis)).map
        p.coord = (s.axes.filter (unstretched s dims out)).map q.coord ↔
      s.project dims p = q := by
  rw [kept_eq h, List.map_map, List.map_inj_left]
  constructor
  · intro hAgree
    apply Position.ext
    · simp [Shape.project, Shape.length_of_mem_box hq]
    · intro k hk
      have hk' : k < s.rank := by simpa [Shape.project] using hk
      rw [Shape.project, coord_tabulate _ hk']
      split
      · rename_i hOne
        -- On an axis of extent one both coordinates are zero.
        exact (Shape.coord_eq_zero hq hOne).symm
      · rename_i hOne
        have hKeep : unstretched s dims out k = true :=
          unstretched_iff.mpr fun h => absurd h hOne
        exact hAgree k (List.mem_filter.mpr ⟨List.mem_range.mpr hk', hKeep⟩)
  · rintro rfl k hk
    obtain ⟨hMem, hKeep⟩ := List.mem_filter.mp hk
    have hk' := List.mem_range.mp hMem
    show p.coord (dims.getD k 0) = (s.project dims p).coord k
    rw [Shape.project, coord_tabulate _ hk']
    split
    · rename_i hOne
      exact Shape.coord_eq_zero hp (unstretched_iff.mp hKeep hOne)
    · rfl

/-- The shape without some axes. -/
def Shape.without (s : Shape) (axes : List Nat) : Shape :=
  (s.axes.filter fun axis => !axes.contains axis).map s.extent

/-- Taking out the stretched axes leaves as many entries as the operand has, in the same
order. -/
theorem reshaped_without (h : s.Stretches dims out) {q : Position} (hq : q ∈ s.box) :
    (out.without (Reverse.stretchedAxes s dims out)).reshaped s q =
      (s.axes.filter (unstretched s dims out)).map q.coord := by
  have hDrop : ∀ a < s.rank, unstretched s dims out a = false → s.extent a = 1 :=
    fun _ _ => extent_of_stretched
  obtain ⟨hSize, hNumber⟩ := Shape.rowMajor_filter_axes hq hDrop
  have hAxes : ∀ a ∈ s.axes.filter (unstretched s dims out), a < s.rank := fun a ha =>
    List.mem_range.mp (List.mem_of_mem_filter ha)
  have hBox := Shape.map_coord_mem_box hq hAxes
  rw [Shape.without, map_extent_kept h]
  exact ((Shape.eq_reshaped_iff hSize hq hBox).mpr hNumber).symm

theorem size_without (h : s.Stretches dims out) :
    (out.without (Reverse.stretchedAxes s dims out)).size = s.size := by
  rw [Shape.without, map_extent_kept h]
  exact Shape.size_filter_axes fun _ _ h => extent_of_stretched h

/-- Taking out the stretched axes leaves the operand's extents, but for axes of extent one. -/
theorem nonSingleton_without (h : s.Stretches dims out) :
    (out.without (Reverse.stretchedAxes s dims out)).nonSingleton = s.nonSingleton := by
  rw [Shape.without, map_extent_kept h]
  exact Shape.nonSingleton_filter_axes fun _ _ h => extent_of_stretched h

/-- **The sum over the stretched axes adds up, for each entry of the operand, all positions that
read it.** -/
theorem sum_stretched {R : Type*} [AddCommMonoid R] (h : s.Stretches dims out) {q : Position}
    (hq : q ∈ s.box) (f : Position → R) :
    ∑ p ∈ summedPositions (Reverse.stretchedAxes s dims out) out
        ((out.without (Reverse.stretchedAxes s dims out)).reshaped s q), f p =
      ∑ p ∈ out.box with s.project dims p = q, f p := by
  congr 1
  apply Finset.filter_congr
  intro p hp
  rw [reshaped_without h hq]
  exact map_coord_kept_iff h hp hq

end

/-- The surplus axes of an implicit stretch are the stretched axes along the last ones. -/
theorem surplusAxes_eq {s out : Shape} (h : s.Below out) :
    Reverse.surplusAxes out s =
      Reverse.stretchedAxes s (trailingDims s.rank out.rank) out := by
  have hRank := h.rank_le
  have hStretches := h.stretches
  have hOut : out.rank = (out.rank - s.rank) + s.rank := by omega
  rw [Reverse.surplusAxes, Reverse.stretchedAxes, Shape.axes]
  conv_rhs => rw [hOut, List.range_add, List.filter_append, List.filter_map]
  rw [Nat.sub_eq_zero_of_le hRank, Nat.sub_zero]
  -- The axes in front of those of `s` are all stretched; behind them, axis `k` of `s` decides.
  congr 1
  · symm
    rw [List.filter_eq_self]
    intro axis hAxis
    have hNone : (trailingDims s.rank (out.rank - s.rank + s.rank)).idxOf? axis = none := by
      rw [List.idxOf?_eq_none_iff]
      intro hMem
      obtain ⟨k, -, hEq⟩ := List.mem_map.mp hMem
      have := List.mem_range.mp hAxis
      omega
    rw [hNone]
  · congr 1
    apply List.filter_congr
    intro k hk
    have hSome := idxOf?_getD hStretches (List.mem_range.mp hk)
    rw [Shape.getD_trailingDims (List.mem_range.mp hk)] at hSome
    rw [Function.comp_apply, ← hOut, hSome, Nat.zero_add]

/-! ## The recorded sum -/

namespace Reverse

open Recording

variable {R : Type*} [CommRing R] {I : Interpretation R} {inputs : ValueId → Position → R}
  {r : Recorder} {s out : Shape} {dims : List Nat} {v : ValueId} {entries : Position → R}

theorem ensures_sumOver {axes : List Nat} (hLt : ∀ a ∈ axes, a < out.rank)
    (hNodup : axes.Nodup) (hv : r.graph.Fills I inputs out v entries) :
    Ensures (sumOver v axes) r fun w r' => r.Extends r' ∧
      r'.graph.Fills I inputs (out.without axes) w fun q =>
        ∑ p ∈ summedPositions axes out q, entries p := by
  unfold sumOver
  split
  · rename_i hEmpty
    obtain rfl : axes = [] := List.isEmpty_iff.mp hEmpty
    have hWithout : out.without [] = out := by
      rw [Shape.without]
      simp only [List.contains_nil, Bool.not_false, List.filter_true]
      exact out.map_extent_axes
    rw [hWithout]
    refine ⟨Recorder.Extends.refl r, hv.congr ?_⟩
    intro q hq
    -- Nothing is recorded: with no axis to sum over, a position is summed with nothing else.
    have hSelf : summedPositions [] out q = {q} := by
      ext p
      rw [summedPositions, Finset.mem_filter, Finset.mem_singleton]
      simp only [List.contains_nil, Bool.not_false, List.filter_true]
      constructor
      · rintro ⟨hp, rfl⟩
        exact (tabulate_coord (Shape.length_of_mem_box hp)).symm
      · rintro rfl
        exact ⟨hq, tabulate_coord (Shape.length_of_mem_box hq)⟩
    rw [hSelf, Finset.sum_singleton]
  · have hOperands : ∀ w ∈ [v], w < r.graph.size := by simpa using hv.lt
    have hShape : (Operation.reduceSum axes).resultShape ([v].map r.graph.shape) =
        .ok (out.without axes) := by
      rw [List.map_singleton, hv.shape]
      exact sumShape_eq_ok.mpr ⟨⟨hLt, hNodup⟩, rfl⟩
    apply (ensures_push hOperands hShape).imp_extends
    rintro w r' hExtends ⟨hw, hGet⟩
    apply (fills_of_op I inputs hExtends hOperands hw.ge hGet).congr
    intro q _
    show ∑ p ∈ summedPositions axes (r.graph.shape v) q, r.graph.entry I inputs v p = _
    rw [hv.shape]
    exact Finset.sum_congr rfl fun p hp => hv.entry p (Finset.mem_filter.mp hp).1

/-- A reshape keeps the entries in row-major order. -/
theorem ensures_reshape_fills (hSize : out.size = s.size)
    (hv : r.graph.Fills I inputs out v entries) :
    Ensures (reshape v s) r fun w r' => r.Extends r' ∧
      r'.graph.Fills I inputs s w fun q => entries (out.reshaped s q) := by
  have hOperands : ∀ w ∈ [v], w < r.graph.size := by simpa using hv.lt
  apply (ensures_reshape hv.lt (by rw [hv.shape, hSize])).imp_extends
  rintro w r' hExtends ⟨hw, hGet⟩
  apply (fills_of_op I inputs hExtends hOperands hw.ge hGet).congr
  intro q hq
  show r.graph.entry I inputs v ((r.graph.shape v).reshaped s q) = _
  rw [hv.shape]
  exact hv.entry _ (Shape.reshaped_mem_box hSize hq)

theorem fills_of_reshaped_self {g : Graph}
    (hv : g.Fills I inputs s v entries) :
    g.Fills I inputs s v fun q => entries (s.reshaped s q) := by
  apply hv.congr
  intro q hq
  rw [Shape.reshaped, Shape.ofRowMajor_rowMajor hq]

/-- The sum over the stretched axes of an operand. -/
theorem ensures_sum_stretched (h : s.Stretches dims out)
    (hv : r.graph.Fills I inputs out v entries) :
    Ensures (sumOver v (stretchedAxes s dims out)) r fun w r' => r.Extends r' ∧
      ∃ sums, r'.graph.Fills I inputs (out.without (stretchedAxes s dims out)) w sums ∧
        ∀ q ∈ s.box, sums ((out.without (stretchedAxes s dims out)).reshaped s q) =
          ∑ p ∈ out.box with s.project dims p = q, entries p := by
  apply (ensures_sumOver (fun a ha => List.mem_range.mp (List.mem_of_mem_filter ha))
    (List.nodup_range.filter _) hv).imp_extends
  exact fun w r' _ hw => ⟨_, hw, fun q hq => sum_stretched h hq entries⟩

/-- **The contribution of a broadcast adds up, for each entry of the operand, all positions that
read it.** -/
theorem ensures_broadcastContribution (h : s.Stretches dims out)
    (hv : r.graph.Fills I inputs out v entries) :
    Ensures (broadcastContribution s dims out v) r fun w r' => r.Extends r' ∧
      r'.graph.Fills I inputs s w fun q =>
        ∑ p ∈ out.box with s.project dims p = q, entries p := by
  unfold broadcastContribution
  apply (ensures_sum_stretched h hv).bind_extends
  rintro summed r₁ - ⟨sums, hSummed, hSums⟩
  apply ensures_shapeOf_bind
  rw [hSummed.shape]
  split
  · rename_i hSame
    rw [hSame] at hSummed hSums
    exact ⟨Recorder.Extends.refl r₁, (fills_of_reshaped_self hSummed).congr hSums⟩
  · apply (ensures_reshape_fills (size_without h) hSummed).imp_extends
    exact fun w r₂ _ hw => hw.congr hSums

/-- **A contribution of the result's shape is summed down to an operand that stretches to it.** -/
theorem ensures_unbroadcast (h : s.Below out) (hv : r.graph.Fills I inputs out v entries) :
    Ensures (unbroadcast v s) r fun w r' => r.Extends r' ∧
      r'.graph.Fills I inputs s w fun q =>
        ∑ p ∈ out.box with s.align p = q, entries p := by
  have hStretches := h.stretches
  -- An aligned shape is stretched along the trailing axes, so the sums of a stretch apply.
  have hAlign : ∀ p ∈ out.box, s.project (trailingDims s.rank out.rank) p = s.align p := by
    intro p hp
    rw [← Shape.length_of_mem_box hp]
    exact s.project_trailingDims p
  unfold unbroadcast
  apply ensures_shapeOf_bind
  rw [hv.shape]
  split
  · rename_i hSame
    obtain rfl : out = s := hSame
    refine ⟨Recorder.Extends.refl r, hv.congr ?_⟩
    intro q hq
    have hSelf : {p ∈ out.box | out.align p = q} = {q} := by
      ext p
      rw [Finset.mem_filter, Finset.mem_singleton]
      constructor
      · rintro ⟨hp, rfl⟩
        exact (Shape.align_self hp).symm
      · rintro rfl
        exact ⟨hq, Shape.align_self hq⟩
    rw [hSelf, Finset.sum_singleton]
  · rw [surplusAxes_eq h]
    apply (ensures_sum_stretched hStretches hv).bind_extends
    rintro summed r₁ - ⟨sums, hSummed, hSums⟩
    have hReads : ∀ q, {p ∈ out.box | s.project (trailingDims s.rank out.rank) p = q} =
        {p ∈ out.box | s.align p = q} := by
      intro q
      exact Finset.filter_congr fun p hp => by rw [hAlign p hp]
    simp only [hReads] at hSums
    apply ensures_shapeOf_bind
    rw [hSummed.shape]
    split
    · rename_i hSame
      rw [hSame] at hSummed hSums
      exact ⟨Recorder.Extends.refl r₁, (fills_of_reshaped_self hSummed).congr hSums⟩
    · rw [if_pos (size_without hStretches)]
      apply (ensures_reshape_fills (size_without hStretches) hSummed).imp_extends
      exact fun w r₂ _ hw => hw.congr hSums

/-- A contribution that is a scalar is stretched to the operand. -/
theorem ensures_unbroadcast_scalar (hShape : r.graph.shape v = [])
    (hv : r.graph.Spreads I inputs s v entries) :
    Ensures (unbroadcast v s) r fun w r' => r.Extends r' ∧
      r'.graph.Fills I inputs s w entries := by
  unfold unbroadcast
  apply ensures_shapeOf_bind
  split
  · rename_i hSame
    exact ⟨Recorder.Extends.refl r, hv.fills hSame⟩
  · rename_i hDiffers
    rw [hShape] at hDiffers ⊢
    -- A scalar has no axis to sum over, and its one entry goes to every place.
    have hNone : surplusAxes [] s = [] := by
      simp [surplusAxes, Shape.rank]
    have hSame : sumOver v (surplusAxes [] s) = pure v := by
      rw [hNone]
      rfl
    have hScalar : r.graph.Fills I inputs [] v fun _ => r.graph.entry I inputs v [] := by
      refine ⟨hv.lt, hShape, ?_⟩
      intro p hp
      rw [Finset.mem_singleton.mp hp]
    have hEntry : ∀ p ∈ s.box, r.graph.entry I inputs v [] = entries p := by
      intro p hp
      rw [← hv.aligned p hp, Tensor.aligned, Graph.tensor, hShape]
      rfl
    rw [hSame, pure_bind]
    apply ensures_shapeOf_bind
    rw [hShape, if_neg hDiffers]
    split
    · rename_i hSize
      apply (ensures_reshape_fills hSize hScalar).imp_extends
      exact fun w r' _ hw => hw.congr hEntry
    · apply (ensures_broadcastTo hv.lt hv.below).imp_extends
      rintro w r' hExtends ⟨hw, hGet⟩
      exact fills_of_trailing hExtends hv hw.ge hGet

end Reverse

end ArrayEquations
