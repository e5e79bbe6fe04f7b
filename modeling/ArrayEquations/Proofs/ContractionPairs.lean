import ArrayEquations.Proofs.Evaluation
import ArrayEquations.Proofs.ShapeRules

/-!
# ArrayEquations — the pairs of a contraction

A contraction adds up products over pairs of operand positions. Such a pair agrees along
the contracted and the batch axes, and its batch and free coordinates are those of the
result. The contracted, batch and free axes together are all axes of an operand, so the
pair is known from the result's position and the contracted coordinates.

## Main results

* `ContractionAxes.mem_pairs` — what it means to be such a pair.
* `ContractionAxes.pairs_ext` — a pair is known from its contracted coordinates.
* `ContractionAxes.extent_outShape_batch`, `…_lhsFree`, `…_rhsFree` — the extents of the
  result.
-/

namespace ArrayEquations

open Position

namespace Shape

theorem extent_append_left {s t : Shape} {k : Nat} (hk : k < s.rank) :
    extent (s ++ t) k = s.extent k := by
  simp only [rank] at hk
  simp [extent, List.getD, List.getElem?_append_left hk]

theorem extent_append_right (s t : Shape) (k : Nat) :
    extent (s ++ t) (s.rank + k) = t.extent k := by
  simp only [extent, rank, List.getD]
  rw [List.getElem?_append_right (Nat.le_add_right _ _), Nat.add_sub_cancel_left]

end Shape

theorem mem_freeAxes {rank a : Nat} {contract batch : List Nat} :
    a ∈ freeAxes rank contract batch ↔ a < rank ∧ a ∉ contract ∧ a ∉ batch := by
  simp [freeAxes]

theorem nodup_freeAxes (rank : Nat) (contract batch : List Nat) :
    (freeAxes rank contract batch).Nodup :=
  List.nodup_range.filter _

namespace ContractionAxes

variable {axes : ContractionAxes} {ls rs : Shape}

theorem mem_pairs {p : Position} {x : Position × Position} :
    x ∈ axes.pairs ls rs p ↔
      (x.1 ∈ ls.box ∧ x.2 ∈ rs.box) ∧
      axes.lhsContract.map x.1.coord = axes.rhsContract.map x.2.coord ∧
      axes.lhsBatch.map x.1.coord = axes.rhsBatch.map x.2.coord ∧
      axes.lhsBatch.map x.1.coord ++ (axes.lhsFree ls.rank).map x.1.coord ++
        (axes.rhsFree rs.rank).map x.2.coord = p := by
  rw [pairs, Finset.mem_filter, Finset.mem_product]

theorem lhs_cover (axes : ContractionAxes) {k : Nat} (hk : k < ls.rank) :
    k ∈ axes.lhsBatch ++ axes.lhsFree ls.rank ++ axes.lhsContract := by
  simp only [List.mem_append, lhsFree, mem_freeAxes]
  tauto

theorem rhs_cover (axes : ContractionAxes) {k : Nat} (hk : k < rs.rank) :
    k ∈ axes.rhsBatch ++ axes.rhsFree rs.rank ++ axes.rhsContract := by
  simp only [List.mem_append, rhsFree, mem_freeAxes]
  tauto

/-- A pair is known from its contracted coordinates. -/
theorem pairs_ext {p : Position} {x y : Position × Position} (hx : x ∈ axes.pairs ls rs p)
    (hy : y ∈ axes.pairs ls rs p)
    (h : axes.lhsContract.map x.1.coord = axes.lhsContract.map y.1.coord) : x = y := by
  obtain ⟨⟨hx₁, hx₂⟩, hxContract, hxBatch, hxResult⟩ := mem_pairs.mp hx
  obtain ⟨⟨hy₁, hy₂⟩, hyContract, hyBatch, hyResult⟩ := mem_pairs.mp hy
  obtain ⟨hLeft, hRhsFree⟩ := List.append_inj (hxResult.trans hyResult.symm) (by simp)
  obtain ⟨hBatch, hLhsFree⟩ := List.append_inj hLeft (by simp)
  apply Prod.ext
  · apply Shape.eq_of_map_coord_eq hx₁ hy₁ fun k hk => axes.lhs_cover hk
    rw [List.map_append, List.map_append, List.map_append, List.map_append, hBatch, hLhsFree, h]
  · apply Shape.eq_of_map_coord_eq hx₂ hy₂ fun k hk => axes.rhs_cover hk
    rw [List.map_append, List.map_append, List.map_append, List.map_append, ← hxBatch, hBatch,
      hyBatch, hRhsFree, ← hxContract, h, hyContract]

theorem rank_outShape (axes : ContractionAxes) (ls rs : Shape) :
    (axes.outShape ls rs).rank = axes.lhsBatch.length + (axes.lhsFree ls.rank).length +
      (axes.rhsFree rs.rank).length := by
  simp only [outShape, Shape.rank, List.length_append, List.length_map]

theorem extent_outShape_batch (rs : Shape) {k : Nat} (hk : k < axes.lhsBatch.length) :
    (axes.outShape ls rs).extent k = ls.extent axes.lhsBatch[k] := by
  rw [outShape, List.append_assoc,
    Shape.extent_append_left (s := axes.lhsBatch.map ls.extent) (by simpa [Shape.rank] using hk),
    Shape.extent_map hk]

theorem extent_outShape_lhsFree (rs : Shape) {k : Nat}
    (hk : k < (axes.lhsFree ls.rank).length) :
    (axes.outShape ls rs).extent (axes.lhsBatch.length + k) =
      ls.extent (axes.lhsFree ls.rank)[k] := by
  have hBatch : axes.lhsBatch.length = Shape.rank (axes.lhsBatch.map ls.extent) := by
    simp [Shape.rank]
  rw [outShape, List.append_assoc, hBatch, Shape.extent_append_right,
    Shape.extent_append_left (s := (axes.lhsFree ls.rank).map ls.extent)
      (by simpa [Shape.rank] using hk), Shape.extent_map hk]

theorem extent_outShape_rhsFree (ls : Shape) {k : Nat}
    (hk : k < (axes.rhsFree rs.rank).length) :
    (axes.outShape ls rs).extent
        (axes.lhsBatch.length + (axes.lhsFree ls.rank).length + k) =
      rs.extent (axes.rhsFree rs.rank)[k] := by
  have hLeft : axes.lhsBatch.length + (axes.lhsFree ls.rank).length =
      Shape.rank (axes.lhsBatch.map ls.extent ++ (axes.lhsFree ls.rank).map ls.extent) := by
    simp [Shape.rank]
  rw [outShape, hLeft, Shape.extent_append_right, Shape.extent_map hk]

end ContractionAxes

/-- A table of coordinates, cut in two. -/
theorem Position.tabulate_add (m n : Nat) (f : Nat → Nat) :
    tabulate (m + n) f = tabulate m f ++ tabulate n fun k => f (m + k) := by
  rw [tabulate, List.range_add, List.map_append, List.map_map]
  rfl

/-- The coordinates along axes, from what each of them is. -/
theorem Position.map_coord_eq_tabulate {axes : List Nat} {q : Position} {f : Nat → Nat}
    (h : ∀ k (hk : k < axes.length), q.coord axes[k] = f k) :
    axes.map q.coord = tabulate axes.length f := by
  apply List.ext_getElem
  · simp
  · intro k h₁ h₂
    rw [List.length_map] at h₁
    simpa [tabulate] using h k h₁

end ArrayEquations
