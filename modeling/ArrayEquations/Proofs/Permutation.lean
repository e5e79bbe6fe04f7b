import ArrayEquations.Proofs.Evaluation

/-!
# ArrayEquations — permutations of axes

A permutation lists each axis below its length once. A transposition takes operand axis
`permutation[k]` to result axis `k`, so the operand's position has at axis `a` the
coordinate of the result's axis where `a` stands in the list.

## Main definitions

* `IsPermutation` — a list of axes is a permutation.

## Main results

* `last_position_eq_idxOf` — where an axis stands, found from the end of the list.
* `eq_unpermute_iff` — the operand's position is the one whose permuted coordinates are
  those of the result.
-/

namespace ArrayEquations

/-- The list names each axis below its length once. -/
structure IsPermutation (permutation : List Nat) : Prop where
  lt_length : ∀ a ∈ permutation, a < permutation.length
  nodup : permutation.Nodup

namespace IsPermutation

/-- The list has the axes below its length in some order. -/
theorem perm_range {permutation : List Nat} (h : IsPermutation permutation) :
    permutation.Perm (List.range permutation.length) := by
  apply List.Subperm.perm_of_length_le
  · apply List.subperm_of_subset h.nodup
    intro b hb
    exact List.mem_range.mpr (h.lt_length b hb)
  · simp

theorem mem {permutation : List Nat} (h : IsPermutation permutation) {a : Nat}
    (ha : a < permutation.length) : a ∈ permutation :=
  h.perm_range.mem_iff.mpr (List.mem_range.mpr ha)

theorem idxOf_lt {permutation : List Nat} (h : IsPermutation permutation) {a : Nat}
    (ha : a < permutation.length) : permutation.idxOf a < permutation.length :=
  List.idxOf_lt_length_of_mem (h.mem ha)

theorem idxOf_getElem {permutation : List Nat} (h : IsPermutation permutation) {k : Nat}
    (hk : k < permutation.length) : permutation.idxOf permutation[k] = k :=
  h.nodup.idxOf_getElem k hk

end IsPermutation

/-- The position of an axis that the list names. -/
theorem idxOf?_of_mem {axes : List Nat} {a : Nat} (ha : a ∈ axes) :
    axes.idxOf? a = some (axes.idxOf a) := by
  obtain ⟨k, hk⟩ := Option.isSome_iff_exists.mp (List.isSome_idxOf?.mpr ha)
  rw [hk, List.idxOf_eq_getD_idxOf?, hk]
  rfl

/-- In a list without repetitions an axis stands where its last occurrence does. -/
theorem last_position_eq_idxOf {axes : List Nat} (hNodup : axes.Nodup) {a : Nat}
    (ha : a ∈ axes) :
    ∃ k, axes.reverse.idxOf? a = some k ∧ axes.length - 1 - k = axes.idxOf a := by
  have hLt : axes.idxOf a < axes.length := List.idxOf_lt_length_of_mem ha
  have hReverse : axes.length - 1 - axes.idxOf a < axes.reverse.length := by
    rw [List.length_reverse]
    omega
  have hGet : axes.reverse[axes.length - 1 - axes.idxOf a] = a := by
    rw [List.getElem_reverse]
    have hIndex : axes.length - 1 - (axes.length - 1 - axes.idxOf a) = axes.idxOf a := by
      omega
    simp only [hIndex, List.getElem_idxOf hLt]
  have hIdx : axes.reverse.idxOf a = axes.length - 1 - axes.idxOf a := by
    have := (List.nodup_reverse.mpr hNodup).idxOf_getElem _ hReverse
    rwa [hGet] at this
  refine ⟨axes.length - 1 - axes.idxOf a, ?_, by omega⟩
  rw [idxOf?_of_mem (List.mem_reverse.mpr ha), hIdx]

/-- Among entries for different axes, the one for an axis is found. -/
theorem lookup_eq_some_of_nodup {α : Type} {entries : List (Nat × α)}
    (hNodup : (entries.map (·.1)).Nodup) {a : Nat} {b : α} (h : (a, b) ∈ entries) :
    entries.lookup a = some b := by
  induction entries with
  | nil => exact absurd h List.not_mem_nil
  | cons x entries ih =>
    obtain ⟨a', b'⟩ := x
    obtain ⟨ha', hNodup⟩ := List.nodup_cons.mp hNodup
    rcases List.mem_cons.mp h with hEq | hTail
    · obtain ⟨rfl, rfl⟩ := Prod.mk.inj hEq
      rw [List.lookup_cons, beq_self_eq_true]
    · have hNe : a ≠ a' := by
        rintro rfl
        exact ha' (List.mem_map.mpr ⟨(a, b), hTail, rfl⟩)
      rw [List.lookup_cons, beq_false_of_ne hNe]
      exact ih hNodup hTail

/-- The operand's position of a transposition lies in the operand. -/
theorem unpermute_mem_box {permutation : List Nat} (h : IsPermutation permutation) {s : Shape}
    (hLength : permutation.length = s.rank) {p : Position}
    (hp : p ∈ Shape.box (permutation.map s.extent)) : unpermute permutation p ∈ s.box := by
  rw [unpermute, hLength]
  apply Shape.tabulate_mem_box
  intro a ha
  rw [← hLength] at ha
  have hLt := h.idxOf_lt ha
  have hCoord := Shape.coord_lt hp (show permutation.idxOf a < Shape.rank _ by
    simpa [Shape.rank] using hLt)
  rwa [Shape.extent_map hLt, List.getElem_idxOf hLt] at hCoord

/-- The operand's position of a transposition is the one whose permuted coordinates are those of
the result. -/
theorem eq_unpermute_iff {permutation : List Nat} (h : IsPermutation permutation)
    {p q : Position} (hp : p.length = permutation.length)
    (hq : q.length = permutation.length) :
    q = unpermute permutation p ↔ permutation.map q.coord = p := by
  constructor
  · rintro rfl
    apply Position.ext
    · simp [hp]
    · intro k hk
      rw [List.length_map] at hk
      rw [Position.coord_map _ hk, unpermute,
        Position.coord_tabulate _ (h.lt_length _ (List.getElem_mem hk)), h.idxOf_getElem hk]
  · rintro rfl
    apply Position.ext
    · simp [unpermute, hq]
    · intro a ha
      rw [hq] at ha
      have hLt := h.idxOf_lt ha
      rw [unpermute, Position.coord_tabulate _ ha, Position.coord_map _ hLt,
        List.getElem_idxOf hLt]

end ArrayEquations
