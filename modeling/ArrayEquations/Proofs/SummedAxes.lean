import ArrayEquations.Proofs.Axes
import ArrayEquations.Proofs.FreshIndices

/-!
# ArrayEquations — the indices of summed axes

A sum over axes gives its operand the result's indices on the axes that it keeps and new
indices on the axes that it sums over. Summing over the new indices runs through the
operand's positions that lead to the result's position, each once. The proof follows the
operand's axes from the outermost one on, as the rule does.

## Main definitions

* `unsummed` — the entries of a list at the axes that are kept.

## Main results

* `reduceAxes_fits` — the operand's axes carry the indices that they need.
* `sumOver_reduceAxes` — the sum over the new indices is the sum over the operand's
  positions.
-/

namespace ArrayEquations

open Position

/-- The entries of a list at the axes that a sum keeps, the first entry standing at axis
`k`. -/
def unsummed (axes : List Nat) : Nat → List Nat → List Nat
  | _, [] => []
  | k, x :: xs =>
    if axes.contains k then unsummed axes (k + 1) xs else x :: unsummed axes (k + 1) xs

/-- The extents other than one at the axes that a sum removes. -/
def summedExtents (axes : List Nat) (paired : List (Nat × Nat)) : List Nat :=
  (paired.filter fun (extent, axis) => axes.contains axis && extent != 1).map (·.1)

theorem map_filter_eq_unsummed (axes : List Nat) (d k : Nat) (xs : List Nat) :
    ((List.range xs.length).filter fun j => !axes.contains (k + j)).map
      (fun j => xs.getD j d) = unsummed axes k xs := by
  induction xs generalizing k with
  | nil => rfl
  | cons x xs ih =>
    -- Behind the first axis, every axis is one further on.
    have hTail : ((List.range xs.length).map (· + 1)).filter
        (fun j => !axes.contains (k + j)) =
        ((List.range xs.length).filter fun j => !axes.contains (k + 1 + j)).map (· + 1) := by
      rw [List.filter_map]
      congr 2
      funext j
      simp only [Function.comp_apply]
      congr 2
      omega
    rw [List.length_cons, List.range_succ_eq_map, unsummed]
    by_cases hk : axes.contains k = true
    · rw [List.filter_cons_of_neg (by simpa using hk), if_pos hk, hTail, List.map_map, ← ih]
      rfl
    · rw [List.filter_cons_of_pos (by simpa using hk), if_neg hk, hTail, List.map_cons,
        List.map_map, ← ih]
      rfl

/-- The positions that a sum adds up, told by their kept coordinates. -/
theorem summedPositions_eq (axes : List Nat) (s : Shape) (p : Position) :
    summedPositions axes s p = s.box.filter fun q => unsummed axes 0 q = p := by
  apply Finset.filter_congr
  intro q hq
  rw [← map_filter_eq_unsummed axes 0 0 q, Shape.length_of_mem_box hq]
  simp only [Shape.axes, Nat.zero_add]
  rfl

/-- The extents of the kept axes. -/
theorem keptExtents_eq (axes : List Nat) (s : Shape) :
    (s.axes.filter fun a => !axes.contains a).map s.extent = unsummed axes 0 s := by
  rw [← map_filter_eq_unsummed axes 1 0 s]
  simp only [Shape.axes, Shape.rank, Nat.zero_add]
  rfl

section Reduce

variable {axes : List Nat}

theorem summedExtents_cons_single {k n : Nat} (hn : n = 1) (rest : List (Nat × Nat)) :
    summedExtents axes ((n, k) :: rest) = summedExtents axes rest := by
  rw [summedExtents, List.filter_cons_of_neg (by simp [hn])]
  rfl

theorem summedExtents_cons_summed {k n : Nat} (hk : axes.contains k = true) (hn : n ≠ 1)
    (rest : List (Nat × Nat)) :
    summedExtents axes ((n, k) :: rest) = n :: summedExtents axes rest := by
  rw [summedExtents, List.filter_cons_of_pos (by simpa [hn] using hk)]
  rfl

theorem summedExtents_cons_kept {k : Nat} (hk : ¬axes.contains k = true) (n : Nat)
    (rest : List (Nat × Nat)) :
    summedExtents axes ((n, k) :: rest) = summedExtents axes rest := by
  have hNot : (axes.contains k && n != 1) = false := by
    rw [Bool.not_eq_true] at hk
    rw [hk, Bool.false_and]
  rw [summedExtents, List.filter_cons_of_neg (by simpa using hNot)]
  rfl

theorem reduceAxes_cons_single {k n : Nat} (hk : axes.contains k = true)
    (hn : n = 1) (rest : List (Nat × Nat)) (kept : Axes) (scope : IndexScope) :
    reduceAxes axes ((n, k) :: rest) kept scope =
      ((none :: (reduceAxes axes rest kept scope).1), (reduceAxes axes rest kept scope).2) := by
  rw [reduceAxes, if_pos hk, if_pos hn]

theorem reduceAxes_cons_summed {k n : Nat} (hk : axes.contains k = true)
    (hn : n ≠ 1) (rest : List (Nat × Nat)) (kept : Axes) (scope : IndexScope) :
    reduceAxes axes ((n, k) :: rest) kept scope =
      (some scope.next :: (reduceAxes axes rest kept scope.fresh.2).1,
        scope.next :: (reduceAxes axes rest kept scope.fresh.2).2.1,
        (reduceAxes axes rest kept scope.fresh.2).2.2) := by
  rw [reduceAxes, if_pos hk, if_neg hn]
  rfl

theorem reduceAxes_cons_kept {k : Nat} (hk : ¬axes.contains k = true) (n : Nat)
    (rest : List (Nat × Nat)) (kept : Axes) (scope : IndexScope) :
    reduceAxes axes ((n, k) :: rest) kept scope =
      (unlessSingle n (kept.headD none) :: (reduceAxes axes rest kept.tail scope).1,
        (reduceAxes axes rest kept.tail scope).2) := by
  rw [reduceAxes, if_neg hk]

/-- A sum over axes binds symbols that the scope hands out. -/
theorem handsOut_reduceAxes (axes : List Nat) (paired : List (Nat × Nat)) (kept : Axes)
    (scope : IndexScope) :
    scope.HandsOut (reduceAxes axes paired kept scope).2.1
      (reduceAxes axes paired kept scope).2.2 := by
  induction paired generalizing kept scope with
  | nil => exact .nil scope
  | cons x rest ih =>
    obtain ⟨n, k⟩ := x
    by_cases hk : axes.contains k = true
    · by_cases hn : n = 1
      · rw [reduceAxes_cons_single hk hn]
        exact ih kept scope
      · rw [reduceAxes_cons_summed hk hn]
        exact .cons (ih kept scope.fresh.2)
    · rw [reduceAxes_cons_kept hk]
      exact ih kept.tail scope

theorem reduceAxes_opens (axes : List Nat) (paired : List (Nat × Nat)) (kept : Axes)
    (scope : IndexScope) (hLetters : scope.letters ≠ []) :
    scope.Opens (reduceAxes axes paired kept scope).2.1
      (reduceAxes axes paired kept scope).2.2 :=
  (handsOut_reduceAxes axes paired kept scope).opens hLetters

/-- There is a new index for each summed axis of extent other than one. -/
theorem length_reduceAxes (axes : List Nat) (paired : List (Nat × Nat)) (kept : Axes)
    (scope : IndexScope) :
    (reduceAxes axes paired kept scope).2.1.length = (summedExtents axes paired).length := by
  induction paired generalizing kept scope with
  | nil => rfl
  | cons x rest ih =>
    obtain ⟨n, k⟩ := x
    by_cases hk : axes.contains k = true
    · by_cases hn : n = 1
      · rw [reduceAxes_cons_single hk hn, summedExtents_cons_single hn]
        exact ih kept scope
      · rw [reduceAxes_cons_summed hk hn, summedExtents_cons_summed hk hn, List.length_cons,
          List.length_cons, ih]
    · rw [reduceAxes_cons_kept hk, summedExtents_cons_kept hk]
      exact ih kept.tail scope

/-- The operand's axes carry the indices that they need. -/
theorem reduceAxes_fits {k : Nat} {s : Shape} {kept : Axes} {scope : IndexScope}
    (hLetters : scope.letters ≠ []) (h : kept.Fits scope.live (unsummed axes k s)) :
    (reduceAxes axes (s.zipIdx k) kept scope).1.Fits
      (reduceAxes axes (s.zipIdx k) kept scope).2.2.live s := by
  induction s generalizing k kept scope with
  | nil => exact .nil _
  | cons n s ih =>
    rw [List.zipIdx_cons]
    rw [unsummed] at h
    by_cases hk : axes.contains k = true
    · rw [if_pos hk] at h
      by_cases hn : n = 1
      · subst hn
        rw [reduceAxes_cons_single hk rfl]
        exact Axes.Fits.cons_iff.mpr ⟨.of_one rfl, ih hLetters h⟩
      · rw [reduceAxes_cons_summed hk hn]
        have hLetters' : scope.fresh.2.letters ≠ [] := hLetters
        have hKept : kept.Fits scope.fresh.2.live (unsummed axes (k + 1) s) :=
          h.mono (List.subset_append_left _ _)
        have hOpens := reduceAxes_opens axes (s.zipIdx (k + 1)) kept _ hLetters'
        have hNext : scope.next ∈ scope.fresh.2.live :=
          List.mem_append_right _ List.mem_cons_self
        exact Axes.Fits.cons_iff.mpr
          -- The axis takes the index just opened, which the deeper axes leave open.
          ⟨.of_ne_one hn ⟨_, hOpens.subset hNext, rfl⟩, ih hLetters' hKept⟩
    · rw [if_neg hk] at h
      cases kept with
      | nil => exact absurd h.length_eq (by simp)
      | cons i kept =>
        obtain ⟨hFirst, hRest⟩ := Axes.Fits.cons_iff.mp h
        rw [reduceAxes_cons_kept hk]
        have hOpens := reduceAxes_opens axes (s.zipIdx (k + 1)) kept scope hLetters
        exact Axes.Fits.cons_iff.mpr
          ⟨(hFirst.mono hOpens.subset).unlessSingle (Or.inr rfl), ih hLetters hRest⟩

/-- Sums over the positions of a shape that satisfy a condition, outermost axis first. -/
theorem sum_filter_box_cons {R : Type*} [AddCommMonoid R] (n : Nat) (s : Shape)
    (P : Position → Prop) [DecidablePred P] (f : Position → R) :
    ∑ q ∈ (Shape.box (n :: s)).filter P, f q =
      ∑ i ∈ Finset.range n, ∑ q ∈ s.box.filter (fun q => P (i :: q)), f (i :: q) := by
  rw [Finset.sum_filter, Shape.sum_box_cons]
  apply Finset.sum_congr rfl
  intro i _
  rw [Finset.sum_filter]

/-- Along a summed axis all coordinates are added up. -/
theorem sum_box_cons_summed {R : Type*} [AddCommMonoid R] {k : Nat}
    (hk : axes.contains k = true) (n : Nat) (s : Shape) (p : Position) (F : Position → R) :
    ∑ q ∈ (Shape.box (n :: s)).filter (fun q => unsummed axes k q = p), F q =
      ∑ x ∈ Finset.range n,
        ∑ q ∈ s.box.filter (fun q => unsummed axes (k + 1) q = p), F (x :: q) := by
  rw [sum_filter_box_cons]
  simp only [unsummed, hk, if_true]

/-- Along a kept axis there is one coordinate. -/
theorem sum_box_cons_kept {R : Type*} [AddCommMonoid R] {k n c : Nat}
    (hk : ¬axes.contains k = true) (hc : c < n) (s : Shape) (p : Position) (F : Position → R) :
    ∑ q ∈ (Shape.box (n :: s)).filter (fun q => unsummed axes k q = c :: p), F q =
      ∑ q ∈ s.box.filter (fun q => unsummed axes (k + 1) q = p), F (c :: q) := by
  rw [sum_filter_box_cons]
  simp only [unsummed, if_neg hk, List.cons.injEq]
  rw [Finset.sum_eq_single_of_mem c (Finset.mem_range.mpr hc)]
  · simp only [true_and]
  · intro x _ hx
    rw [Finset.filter_false_of_mem fun q _ h => hx h.1, Finset.sum_empty]

/-- The sum over the new indices is the sum over the operand's positions with the kept
coordinates of the result. The body need only be known at assignments that differ at the
new indices and give a position of the operand. -/
theorem sumOver_reduceAxes {R : Type*} [AddCommMonoid R] {k : Nat} {s : Shape} {kept : Axes}
    {scope : IndexScope} (hLetters : scope.letters ≠ [])
    (h : kept.Fits scope.live (unsummed axes k s)) {body : Assignment → R} {F : Position → R}
    {σ : Assignment} (hMem : kept.position σ ∈ Shape.box (unsummed axes k s))
    (hBody : ∀ τ : Assignment,
      (∀ i, i ∉ (reduceAxes axes (s.zipIdx k) kept scope).2.1 → τ i = σ i) →
      (reduceAxes axes (s.zipIdx k) kept scope).1.position τ ∈ s.box →
      body τ = F ((reduceAxes axes (s.zipIdx k) kept scope).1.position τ)) :
    sumOver ((reduceAxes axes (s.zipIdx k) kept scope).2.1.zip
        (summedExtents axes (s.zipIdx k))) body σ =
    ∑ q ∈ s.box.filter (fun q => unsummed axes k q = kept.position σ), F q := by
  induction s generalizing k kept scope F σ with
  | nil =>
    obtain rfl : kept = [] := List.length_eq_zero_iff.mp h.length_eq
    rw [Shape.box_nil, Finset.sum_filter, Finset.sum_singleton]
    exact hBody σ (fun _ _ => rfl) (Finset.mem_singleton_self _)
  | cons n s ih =>
    rw [List.zipIdx_cons] at hBody ⊢
    rw [unsummed] at h hMem
    by_cases hk : axes.contains k = true
    · rw [if_pos hk] at h hMem
      rw [sum_box_cons_summed hk]
      by_cases hn : n = 1
      · -- A summed axis of extent one has the one coordinate zero.
        subst hn
        rw [reduceAxes_cons_single hk rfl] at hBody ⊢
        rw [summedExtents_cons_single rfl, Finset.range_one, Finset.sum_singleton]
        apply ih hLetters h hMem
        intro τ hτ hPosition
        exact hBody τ hτ (Shape.cons_mem_box.mpr ⟨Nat.one_pos, hPosition⟩)
      · -- Any other summed axis has a new index, which the inner sums leave alone.
        have hLetters' : scope.fresh.2.letters ≠ [] := hLetters
        have hKept : kept.Fits scope.fresh.2.live (unsummed axes (k + 1) s) :=
          h.mono (List.subset_append_left _ _)
        have hOpens := reduceAxes_opens axes (s.zipIdx (k + 1)) kept _ hLetters'
        have hNotBound : scope.next ∉
            (reduceAxes axes (s.zipIdx (k + 1)) kept scope.fresh.2).2.1 := by
          intro hBound
          exact hOpens.fresh _ hBound (List.mem_append_right _ List.mem_cons_self)
        rw [reduceAxes_cons_summed hk hn] at hBody ⊢
        rw [summedExtents_cons_summed hk hn, List.zip_cons_cons, sumOver]
        apply Finset.sum_congr rfl
        intro x hx
        have hSame : kept.position (Function.update σ scope.next x) = kept.position σ := by
          apply h.position_congr
          intro i hi
          rw [Function.update_of_ne]
          rintro rfl
          exact scope.next_not_mem_live hLetters hi
        rw [← hSame]
        apply ih hLetters' hKept (hSame ▸ hMem)
        intro τ hτ hPosition
        have hNext : τ scope.next = x := by
          rw [hτ _ hNotBound, Function.update_self]
        have hOutside : ∀ i, i ∉ scope.next ::
            (reduceAxes axes (s.zipIdx (k + 1)) kept scope.fresh.2).2.1 → τ i = σ i := by
          intro i hi
          rw [List.mem_cons, not_or] at hi
          rw [hτ i hi.2, Function.update_of_ne hi.1]
        have hBelow : τ scope.next < n := hNext ▸ Finset.mem_range.mp hx
        rw [hBody τ hOutside (Shape.cons_mem_box.mpr ⟨hBelow, hPosition⟩)]
        show F (τ scope.next :: _) = F (x :: _)
        rw [hNext]
        rfl
    · -- A kept axis has the coordinate of the result.
      rw [if_neg hk] at h hMem
      cases kept with
      | nil => exact absurd h.length_eq (by simp)
      | cons i kept =>
        obtain ⟨hFirst, hRest⟩ := Axes.Fits.cons_iff.mp h
        obtain ⟨hLt, hTail⟩ := Shape.cons_mem_box.mp hMem
        have hOpens := reduceAxes_opens axes (s.zipIdx (k + 1)) kept scope hLetters
        rw [reduceAxes_cons_kept hk] at hBody ⊢
        rw [summedExtents_cons_kept hk]
        refine Eq.trans ?_ (sum_box_cons_kept hk hLt s (Axes.position kept σ) F).symm
        apply ih hLetters hRest hTail
        intro τ hτ hPosition
        have hHead : coordOf τ (unlessSingle n i) = coordOf σ i := by
          by_cases hn : n = 1
          · subst hn
            rw [hFirst.eq_none]
            rfl
          · obtain ⟨x, hx, rfl⟩ := hFirst.exists_some hn
            rw [coordOf_unlessSingle, if_neg hn]
            exact hτ x fun hBound => hOpens.fresh x hBound hx
        have hBelow : coordOf τ (unlessSingle n i) < n := hHead ▸ hLt
        rw [hBody τ hτ (Shape.cons_mem_box.mpr ⟨hBelow, hPosition⟩)]
        show F (coordOf τ (unlessSingle n i) :: _) = _
        rw [hHead]
        rfl

end Reduce

end ArrayEquations
