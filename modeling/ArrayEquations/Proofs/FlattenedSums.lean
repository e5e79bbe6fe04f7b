import ArrayEquations.Proofs.CheckedFormulas
import Mathlib.Data.Set.Card

/-!
# ArrayEquations — nested sums written as one

The contributions to a value are the values at the ends of a tree of sums. Values are shared, so the
same value may be reached in several ways. It is then as often among the contributions.

The arrays of the contributions may have different shapes. Added one after the other, each
stretched to the common shape so far, they have the shape of the sum at the end, since the shapes
to which all of them stretch are those to which the sum does. So they add up to the array of the
sum, in any commutative monoid of entries and in any order.

## Main definitions

* `Graph.Route` — a way down from a value to an end.
* `Tensor.total` — the sum of arrays, stretched to their common shape.

## Main results

* `Graph.Unfolds.count_frontier` — a value is at as many ends as there are ways to it.
* `Graph.Unfolds.total_agrees` — the arrays at the ends add up to the array at the root.
* `Graph.accumulation_flattened` — what the contributions to a value are.
-/

namespace ArrayEquations

/-! ## Ways to the ends -/

/-- The two operands of a sum. -/
inductive Side where
  | left | right
  deriving DecidableEq, Repr

namespace Graph

/-- A way from a value down to one that does not open, given by the sides that it takes. -/
inductive Route (g : Graph) (opens : ValueId → Prop) : ValueId → List Side → ValueId → Prop
  | here {v : ValueId} (h : ¬ opens v) : Route g opens v [] v
  | left {v a b w : ValueId} {sides : List Side} (h : opens v) (hOperands : g.operands v = [a, b])
    (hRest : Route g opens a sides w) : Route g opens v (.left :: sides) w
  | right {v a b w : ValueId} {sides : List Side} (h : opens v) (hOperands : g.operands v = [a, b])
    (hRest : Route g opens b sides w) : Route g opens v (.right :: sides) w

variable {g : Graph} {opens : ValueId → Prop} {v : ValueId} {tree : SumTree}

/-- The only way from a value that does not open is to stay there. -/
theorem routes_of_not_opens (hNot : ¬ opens v) (w : ValueId) :
    {sides | g.Route opens v sides w} = if v = w then {[]} else ∅ := by
  ext sides
  constructor
  · rintro (_ | ⟨hOpen, _, _⟩ | ⟨hOpen, _, _⟩)
    · simp
    · exact absurd hOpen hNot
    · exact absurd hOpen hNot
  · intro h
    split at h
    · rename_i hEq
      obtain rfl := hEq
      obtain rfl := Set.mem_singleton_iff.mp h
      exact .here hNot
    · exact absurd h (Set.notMem_empty _)

/-- A way from a sum goes to one of its operands first. -/
theorem routes_of_opens {a b : ValueId} (hOpen : opens v) (hOperands : g.operands v = [a, b])
    (w : ValueId) : {sides | g.Route opens v sides w} =
      List.cons Side.left '' {sides | g.Route opens a sides w} ∪
        List.cons Side.right '' {sides | g.Route opens b sides w} := by
  ext sides
  constructor
  · rintro (hNot | ⟨-, hOperands', hRest⟩ | ⟨-, hOperands', hRest⟩)
    · exact absurd hOpen hNot
    · obtain ⟨rfl, -⟩ : a = _ ∧ b = _ := by simpa using hOperands.symm.trans hOperands'
      exact Or.inl ⟨_, hRest, rfl⟩
    · obtain ⟨-, rfl⟩ : a = _ ∧ b = _ := by simpa using hOperands.symm.trans hOperands'
      exact Or.inr ⟨_, hRest, rfl⟩
  · rintro (⟨rest, hRest, rfl⟩ | ⟨rest, hRest, rfl⟩)
    · exact .left hOpen hOperands hRest
    · exact .right hOpen hOperands hRest

/-- **A value is at as many ends of a tree as there are ways to it.** -/
theorem Unfolds.count_frontier (h : g.Unfolds opens v tree) (w : ValueId) :
    (tree.frontier.count w : ℕ∞) = {sides | g.Route opens v sides w}.encard := by
  induction h with
  | @term v hNot =>
    rw [routes_of_not_opens hNot, SumTree.frontier, List.count_singleton]
    by_cases hEq : v = w <;> simp [hEq]
  | sum hOpen hOperands _ _ ihLeft ihRight =>
    -- Ways that begin with different sides are different.
    have hDisjoint : ∀ s t : Set (List Side),
        Disjoint (List.cons Side.left '' s) (List.cons Side.right '' t) := by
      intro s t
      rw [Set.disjoint_left]
      rintro _ ⟨_, -, rfl⟩ ⟨_, -, hEq⟩
      exact absurd (List.cons.inj hEq).1 (by decide)
    have hCons : ∀ side : Side, Function.Injective (List.cons side) := fun side _ _ hEq =>
      (List.cons.inj hEq).2
    rw [routes_of_opens hOpen hOperands, Set.encard_union_eq (hDisjoint _ _),
      (hCons _).encard_image, (hCons _).encard_image, ← ihLeft, ← ihRight, SumTree.frontier,
      List.count_append, Nat.cast_add]

end Graph

/-! ## Sums of arrays -/

section Arrays

variable {M : Type*} [AddCommMonoid M]

namespace Tensor

/-- Two arrays are the same: they have one shape, and the same entries in it. -/
def Agrees (a b : Tensor M) : Prop := a.shape = b.shape ∧ ∀ p ∈ a.shape.box, a.entry p = b.entry p

/-- The sum of two arrays, stretched to their common shape. -/
def plus (a b : Tensor M) : Except ShapeError (Tensor M) :=
  (a.shape.broadcast b.shape).map fun s => ⟨s, fun p => a.aligned p + b.aligned p⟩

/-- The sum of a row of arrays, one after the other; the sum of none is a zero. -/
def total (as : List (Tensor M)) : Except ShapeError (Tensor M) := as.foldlM plus ⟨[], 0⟩

/-- Arrays that stretch to one shape have a sum. It stretches to whatever all of them stretch to,
and its entries are the sums of theirs. -/
theorem exists_foldlM_plus {out : Shape} (as : List (Tensor M)) (start : Tensor M)
    (hStart : start.shape.Below out) (h : ∀ a ∈ as, a.shape.Below out) :
    ∃ t, as.foldlM plus start = .ok t ∧
      (∀ o, t.shape.Below o ↔ start.shape.Below o ∧ ∀ a ∈ as, a.shape.Below o) ∧
      ∀ p ∈ t.shape.box, t.entry p = start.aligned p + (as.map (·.aligned p)).sum := by
  induction as generalizing start with
  | nil =>
    refine ⟨start, rfl, by simp, ?_⟩
    intro p hp
    rw [aligned, Shape.align_self hp, List.map_nil, List.sum_nil, add_zero]
  | cons a as ih =>
    obtain ⟨c, hCommon, hBelow⟩ := Shape.exists_broadcast hStart (h a List.mem_cons_self)
    let next : Tensor M := ⟨c, fun p => start.aligned p + a.aligned p⟩
    have hNext : start.plus a = .ok next := by
      rw [plus, hCommon]
      rfl
    -- The shapes after the common one are those after both.
    have hLeast : ∀ o, c.Below o ↔ start.shape.Below o ∧ a.shape.Below o := by
      intro o
      rw [← Shape.bounds_broadcast, hCommon]
      simp [Shape.Bounds]
    obtain ⟨t, hTotal, hAfter, hEntry⟩ := ih next hBelow fun b hb => h b (List.mem_cons_of_mem a hb)
    refine ⟨t, ?_, ?_, ?_⟩
    · rw [List.foldlM_cons, hNext]
      exact hTotal
    · intro o
      rw [hAfter, hLeast, List.forall_mem_cons, and_assoc]
    · intro p hp
      have hc : c.Below t.shape := ((hAfter t.shape).mp (.refl _)).1
      obtain ⟨hs, ha⟩ := Shape.below_of_broadcast hCommon
      have hAligned : next.aligned p = start.aligned p + a.aligned p := by
        show start.entry _ + a.entry _ = _
        rw [Shape.align_align hs hc hp, Shape.align_align ha hc hp]
        rfl
      rw [hEntry p hp, hAligned, List.map_cons, List.sum_cons, add_assoc]

end Tensor

namespace Graph

variable {g : Graph} {opens : ValueId → Prop} {v : ValueId} {tree : SumTree}
  {entries : ValueId → Position → M}

/-- **The arrays at the ends of a tree, in any order, add up to the array at its root.** -/
theorem Unfolds.total_agrees (hSums : g.SumsFit)
    (hOpens : ∀ v, opens v → isAccumulation g v = true) (hAccumulates : g.Accumulates entries)
    (h : g.Unfolds opens v tree) {terms : List ValueId} (hPerm : terms.Perm tree.frontier) :
    ∃ t, Tensor.total (terms.map (g.arrayOf entries)) = .ok t ∧ t.Agrees (g.arrayOf entries v) := by
  have hBelow : ∀ out, (∀ a ∈ terms.map (g.arrayOf entries), a.shape.Below out) ↔
      (g.shape v).Below out := by
    intro out
    rw [← h.below_iff hSums hOpens out, List.forall_mem_map]
    exact ⟨fun hEach w hw => hEach w (hPerm.mem_iff.mpr hw),
      fun hEach w hw => hEach w (hPerm.mem_iff.mp hw)⟩
  obtain ⟨t, hTotal, hAfter, hEntry⟩ := Tensor.exists_foldlM_plus (terms.map (g.arrayOf entries))
    ⟨[], 0⟩ (.nil _) ((hBelow _).mpr (.refl _))
  -- The sum and the root stretch to the same shapes, so they have the same one.
  have hSame : ∀ out, t.shape.Below out ↔ (g.shape v).Below out := by
    intro out
    rw [hAfter, hBelow]
    exact and_iff_right (.nil out)
  have hShape : t.shape = g.shape v :=
    ((hSame _).mpr (.refl _)).antisymm ((hSame _).mp (.refl _))
  refine ⟨t, hTotal, hShape, ?_⟩
  intro p hp
  rw [hEntry p hp, List.map_map, show (⟨[], 0⟩ : Tensor M).aligned p = 0 from rfl, zero_add]
  calc (terms.map fun w => (g.arrayOf entries w).aligned p).sum
      = (tree.frontier.map fun w => (g.arrayOf entries w).aligned p).sum :=
        (hPerm.map _).sum_eq
    _ = entries v p := h.sum_frontier hSums hOpens hAccumulates p (hShape ▸ hp)

end Graph

end Arrays

/-! ## The contributions to a value -/

namespace Graph

/-- **Nested sums are written as one.** The contributions to a value of a graph in order are
collected without running out of fuel. They are the ends, from left to right, of the one tree that
the value becomes when sums are replaced by their operands, the value itself always and sums below
it while they have no symbol. So no contribution is a sum without a symbol, and a value is among
them as often as it is reached. Whatever arrays the other values have, in any commutative monoid of
entries the arrays of the contributions, in any order, add up to the array of the value. -/
theorem accumulation_flattened {g : Graph} (hOrdered : g.Ordered) (hSums : g.SumsFit)
    (names : NameTable) {root : ValueId} (hRoot : root < g.size) :
    Checked.accumulationTerms g root names = some (accumulationTerms g root names) ∧
    (∃ tree, g.Unfolds (g.Opens names root) root tree ∧
      (∀ other, g.Unfolds (g.Opens names root) root other → other = tree) ∧
      accumulationTerms g root names = tree.frontier) ∧
    (∀ w ∈ accumulationTerms g root names, isAccumulation g w = true →
      names.hasSymbol w = true) ∧
    (∀ w, ((accumulationTerms g root names).count w : ℕ∞) =
      {sides | g.Route (g.Opens names root) root sides w}.encard) ∧
    ∀ {M : Type*} [AddCommMonoid M] (entries : ValueId → Position → M), g.Accumulates entries →
      ∀ terms : List ValueId, terms.Perm (accumulationTerms g root names) →
        ∃ t, Tensor.total (terms.map (g.arrayOf entries)) = .ok t ∧
          t.Agrees (g.arrayOf entries root) := by
  have hOpens : ∀ v, g.Opens names root v → isAccumulation g v = true :=
    fun _ => Opens.isAccumulation
  obtain ⟨tree, hTree, hTerms⟩ := exists_accumulationTree hOrdered hSums names root
  refine ⟨Checked.accumulationTerms_eq hOrdered hRoot,
    ⟨tree, hTree, fun _ hOther => hTree.unique hOther, hTerms⟩, ?_, ?_, ?_⟩
  · -- Nothing opens at the ends, and a sum without a symbol would.
    intro w hw hSum
    have hNot : ¬ g.Opens names root w := hTree.not_opens w (hTerms ▸ hw)
    by_contra hFree
    exact hNot ⟨hSum, Or.inr (by simpa using hFree)⟩
  · intro w
    rw [hTerms, hTree.count_frontier]
  · intro M _ entries hAccumulates terms hPerm
    exact hTree.total_agrees hSums hOpens hAccumulates (hTerms ▸ hPerm)

/-- Three arrays of different shapes in sums of sums. Two of these are used twice. -/
def nestedSums : Trace where
  name := "f"
  graph := ⟨#[⟨.leaf, [3]⟩, ⟨.leaf, []⟩, ⟨.leaf, [2, 1]⟩, ⟨.op .accumulate [0, 1], [3]⟩,
    ⟨.op .accumulate [3, 2], [2, 3]⟩, ⟨.op .accumulate [4, 3], [2, 3]⟩,
    ⟨.op .accumulate [5, 4], [2, 3]⟩]⟩
  arguments := [⟨0, some "x", false⟩, ⟨1, some "y", false⟩, ⟨2, some "z", false⟩]
  bindings := []
  tags := []
  outputs := [6]

/-- One of the sums in between has a symbol, and two ways lead to it. The vector and the number of
the other one stand for it, though it is smaller than the whole. -/
theorem accumulation_flattened_nestedSums :
    let g := nestedSums.graph
    let names : NameTable := ⟨[(4, .plain "s")], [], .plain "f"⟩
    let I : Interpretation ℤ := ⟨fun _ => 0, (· * ·), (· + ·), fun _ x => x, fun _ x _ => x,
      fun _ _ _ _ => 0⟩
    let entries := fun v => g.entry I (fun v p => v + p.sum) v
    (g.Ordered ∧ g.SumsFit ∧ g.Accumulates entries) ∧
      accumulationTerms g 6 names = [4, 0, 1, 4] ∧
      Checked.accumulationTerms g 6 names = some [4, 0, 1, 4] ∧
      {sides | g.Route (g.Opens names 6) 6 sides 4}.encard = 2 ∧
      ∃ t, Tensor.total ([4, 4, 0, 1].map (g.arrayOf entries)) = .ok t ∧
        t.Agrees (g.arrayOf entries 6) := by
  intro g names I entries
  have hWellFormed : g.WellFormed :=
    (Trace.wellFormed_of_ofDraft (show Trace.ofDraft nestedSums.toDraft = .ok nestedSums by
      decide)).graph
  have hTerms : accumulationTerms g 6 names = [4, 0, 1, 4] := by decide
  obtain ⟨hChecked, -, -, hCount, hArrays⟩ := accumulation_flattened hWellFormed.ordered
    hWellFormed.sumsFit names (show 6 < g.size by decide)
  -- The entries that a graph computes are those of an accumulating family.
  have hAccumulates : g.Accumulates entries := hWellFormed.accumulates I _
  refine ⟨⟨hWellFormed.ordered, hWellFormed.sumsFit, hAccumulates⟩, hTerms, hTerms ▸ hChecked, ?_,
    hArrays entries hAccumulates [4, 4, 0, 1] (by rw [hTerms]; decide)⟩
  rw [← hCount 4, hTerms]
  rfl

end Graph

end ArrayEquations
