import ArrayEquations.Equations.Build
import ArrayEquations.Proofs.Evaluation

/-!
# ArrayEquations — reading formulas

What a formula stands for once every index has a position. A symbol stands for the array
of its source, with position zero on the axes of extent one. A summation runs over the
extents of the axes for which its operation opened it.

## Main definitions

* `sumOver` — a sum over all positions of indices.
* `Graph.openedExtents` — the extents of the axes that an operation sums over.
* `SourcedExpr.value` — the reading of a formula.
* `SourcedExpr.WellSourced` — every symbol is the symbol of its source and has an index
  for each axis that needs one, every summation has an index for each axis it was opened
  for.

## Main results

* `sumOver_eq_sum_box` — a sum over indices is a sum over the positions of a box.
-/

namespace ArrayEquations

/-- A position for every index. -/
abbrev Assignment := Index → Nat

/-! ## Sums over indices -/

section Sums

variable {R : Type*} [AddCommMonoid R]

/-- The sum over all positions of the indices below their extents. -/
def sumOver : List (Index × Nat) → (Assignment → R) → Assignment → R
  | [], F, σ => F σ
  | (i, n) :: rest, F, σ => ∑ k ∈ Finset.range n, sumOver rest F (Function.update σ i k)

/-- The assignment in which indices have the coordinates of a position. -/
def assign : List Index → Position → Assignment → Assignment
  | i :: is, k :: c, σ => assign is c (Function.update σ i k)
  | _, _, σ => σ

theorem assign_of_not_mem {is : List Index} {c : Position} {σ : Assignment} {i : Index}
    (hi : i ∉ is) : assign is c σ i = σ i := by
  induction is generalizing c σ with
  | nil => rw [assign]; simp
  | cons j is ih =>
    cases c with
    | nil => rw [assign]; simp
    | cons k c =>
      rw [List.mem_cons, not_or] at hi
      rw [assign, ih hi.2, Function.update_of_ne hi.1]

/-- Different indices get the coordinates in order. -/
theorem map_assign {is : List Index} {c : Position} {σ : Assignment} (hNodup : is.Nodup)
    (hLength : c.length = is.length) : is.map (assign is c σ) = c := by
  induction is generalizing c σ with
  | nil =>
    rw [List.length_nil, List.length_eq_zero_iff] at hLength
    rw [hLength, List.map_nil]
  | cons i is ih =>
    cases c with
    | nil => simp at hLength
    | cons k c =>
      obtain ⟨hi, hNodup⟩ := List.nodup_cons.mp hNodup
      rw [assign, List.map_cons, assign_of_not_mem hi, Function.update_self,
        ih hNodup (by simpa using hLength)]

/-- A sum over indices is a sum over the positions of a box. -/
theorem sumOver_eq_sum_box {is : List Index} {s : Shape} (hLength : is.length = s.length)
    (F : Assignment → R) (σ : Assignment) :
    sumOver (is.zip s) F σ = ∑ c ∈ s.box, F (assign is c σ) := by
  induction is generalizing s σ with
  | nil =>
    obtain rfl : s = [] := List.length_eq_zero_iff.mp hLength.symm
    rw [Shape.box_nil, Finset.sum_singleton]
    rfl
  | cons i is ih =>
    cases s with
    | nil => simp at hLength
    | cons n s =>
      rw [List.zip_cons_cons, sumOver, Shape.sum_box_cons]
      apply Finset.sum_congr rfl
      intro k _
      rw [ih (by simpa using hLength)]
      rfl

end Sums

/-! ## Formulas -/

/-- The extents of the axes over which an operation sums, leaving out those of extent one. -/
def Graph.openedExtents (g : Graph) (v : ValueId) : List Nat :=
  match g.op? v with
  | some (.contract axes, [a, b]) =>
    ((axes.lhsContract.zip axes.rhsContract).filter fun (l, r) =>
      !((g.shape a).extent l == 1 || (g.shape b).extent r == 1)).map
      fun (l, _) => (g.shape a).extent l
  | some (.reduceSum axes, [a]) =>
    ((g.shape a).zipIdx.filter fun (extent, axis) => axes.contains axis && extent != 1).map
      (·.1)
  | _ => []

namespace SourcedExpr

variable {R : Type*} [CommRing R]

mutual

/-- The reading of a formula in a graph, whose values have the arrays given. -/
def value (I : Interpretation R) (g : Graph) (arrays : ValueId → Position → R) :
    SourcedExpr → Assignment → R
  | .var v r, σ => arrays v ((g.shape v).spread (r.indices.map σ))
  | .literal x, _ => I.literal x
  | .binary op lhs rhs, σ => I.arith op (lhs.value I g arrays σ) (rhs.value I g arrays σ)
  | .neg e, σ => -e.value I g arrays σ
  | .call f argument, σ => I.call f (argument.value I g arrays σ)
  | .indicator c lhs rhs, σ =>
    I.indicator c (lhs.value I g arrays σ) (rhs.value I g arrays σ)
  | .sum v indices body, σ =>
    sumOver (indices.zip (g.openedExtents v)) (body.value I g arrays) σ
  | .terms ts, σ => valueEach I g arrays ts σ

/-- The sum of the readings of formulas. -/
def valueEach (I : Interpretation R) (g : Graph) (arrays : ValueId → Position → R) :
    List SourcedExpr → Assignment → R
  | [], _ => 0
  | t :: ts, σ => t.value I g arrays σ + valueEach I g arrays ts σ

end

mutual

/-- Symbols are those of their sources, with an index for each axis of extent other than one,
and summations have an index for each axis that they were opened for. -/
def WellSourced (g : Graph) (names : NameTable) : SourcedExpr → Prop
  | .var v r =>
    r.symbol = (names.symbol? v).getD (.plain (valueText v)) ∧
      r.indices.length = (g.shape v).nonSingleton.length
  | .literal _ => True
  | .binary _ lhs rhs => lhs.WellSourced g names ∧ rhs.WellSourced g names
  | .neg e => e.WellSourced g names
  | .call _ argument => argument.WellSourced g names
  | .indicator _ lhs rhs => lhs.WellSourced g names ∧ rhs.WellSourced g names
  | .sum v indices body =>
    indices.Nodup ∧ indices.length = (g.openedExtents v).length ∧ body.WellSourced g names
  | .terms ts => WellSourcedEach g names ts

/-- All of the formulas are well-sourced. -/
def WellSourcedEach (g : Graph) (names : NameTable) : List SourcedExpr → Prop
  | [] => True
  | t :: ts => t.WellSourced g names ∧ WellSourcedEach g names ts

end

theorem valueEach_eq_sum (I : Interpretation R) (g : Graph) (arrays : ValueId → Position → R)
    (ts : List SourcedExpr) (σ : Assignment) :
    valueEach I g arrays ts σ = (ts.map fun t => t.value I g arrays σ).sum := by
  induction ts with
  | nil => rw [valueEach]; simp
  | cons t ts ih => rw [valueEach, ih, List.map_cons, List.sum_cons]

theorem wellSourcedEach_iff {g : Graph} {names : NameTable} {ts : List SourcedExpr} :
    WellSourcedEach g names ts ↔ ∀ t ∈ ts, t.WellSourced g names := by
  induction ts with
  | nil => simp [WellSourcedEach]
  | cons t ts ih => rw [WellSourcedEach, ih, List.forall_mem_cons]

end SourcedExpr

end ArrayEquations
