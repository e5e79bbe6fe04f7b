import ArrayEquations.Naming.Threading
import ArrayEquations.Proofs.CommonShapes
import ArrayEquations.Proofs.WellFormed

/-!
# ArrayEquations — trees of sums

A sum of contributions may have sums as its operands, and these again. Written out, it is the row of
the values at the ends of a tree: the sum at the root is replaced by its two operands, and so is
every sum below it that has no symbol of its own.

An operand that is smaller than its sum is stretched to it with the last axes aligned. Stretching
through the sums in between is stretching at once, and the shapes to which all ends of the tree
stretch are those to which the root does. So the entries at the ends, read with the last axes
aligned, add up to those of the root.

## Main definitions

* `Graph.Opens` — a value is replaced by its operands.
* `SumTree`, `Graph.Unfolds` — the tree that a value becomes, and `SumTree.frontier`, its ends.
* `Graph.Accumulates` — the entries of a sum are the sums of its operands' entries.

## Main results

* `Graph.exists_unfolds`, `Graph.Unfolds.unique` — every value has one tree.
* `Graph.accumulationTerms_eq_frontier` — the contributions to a value are the ends of its tree.
* `Graph.Unfolds.below_iff`, `Graph.Unfolds.sum_frontier` — the shapes and the entries of the ends,
  against those of the root.
-/

namespace ArrayEquations

/-- The tree that is left of a value when sums are replaced by their operands. -/
inductive SumTree where
  | term (v : ValueId)
  | sum (v : ValueId) (left right : SumTree)

/-- The values at the ends of a tree from left to right. -/
def SumTree.frontier : SumTree → List ValueId
  | term v => [v]
  | sum _ left right => left.frontier ++ right.frontier

theorem SumTree.length_frontier_pos (tree : SumTree) : 0 < tree.frontier.length := by
  induction tree with
  | term v => exact Nat.zero_lt_one
  | sum v left right ihLeft _ =>
    rw [frontier, List.length_append]
    exact Nat.add_pos_left ihLeft _

namespace Graph

/-- Every sum of contributions has two operands, and the shape that follows from theirs. -/
def SumsFit (g : Graph) : Prop :=
  ∀ v operands s, g.get? v = some ⟨.op .accumulate operands, s⟩ →
    operands.length = 2 ∧ Operation.accumulate.resultShape (operands.map g.shape) = .ok s

/-- A value is replaced by its operands when the contributions to the root are written out: it is
a sum, and it is the root or has no symbol. -/
def Opens (g : Graph) (names : NameTable) (root v : ValueId) : Prop :=
  isAccumulation g v = true ∧ (v = root ∨ names.hasSymbol v = false)

/-- What is left of a value when values that open are replaced by their operands until no such value
is left. -/
inductive Unfolds (g : Graph) (opens : ValueId → Prop) : ValueId → SumTree → Prop
  | term {v : ValueId} (h : ¬ opens v) : Unfolds g opens v (.term v)
  | sum {v a b : ValueId} {left right : SumTree} (h : opens v) (hOperands : g.operands v = [a, b])
    (hLeft : Unfolds g opens a left) (hRight : Unfolds g opens b right) :
    Unfolds g opens v (.sum v left right)

variable {g : Graph} {opens : ValueId → Prop} {names : NameTable} {root v w : ValueId}
  {tree other : SumTree}

theorem SumsFit.exists_operands (h : g.SumsFit) (hSum : isAccumulation g v = true) :
    ∃ a b, g.op? v = some (.accumulate, [a, b]) ∧ g.operands v = [a, b] ∧
      (g.shape a).broadcast (g.shape b) = .ok (g.shape v) := by
  unfold isAccumulation at hSum
  split at hSum
  · rename_i operands hOp
    have hGet := op?_eq_some hOp
    obtain ⟨hLength, hShape⟩ := h v operands _ hGet
    obtain ⟨a, b, rfl⟩ := List.length_eq_two.mp hLength
    exact ⟨a, b, hOp, operands_of_get? hGet, hShape⟩
  · exact absurd hSum (by simp)

theorem Opens.isAccumulation (h : g.Opens names root v) : isAccumulation g v = true := h.1

/-- Below the root the names decide. -/
theorem opens_iff_of_lt (h : w < root) :
    g.Opens names root w ↔ (isAccumulation g w && !names.hasSymbol w) = true := by
  simp [Opens, Nat.ne_of_lt h]

/-- **Every value has a tree**, since the operands of a value come before it. -/
theorem exists_unfolds (hOrdered : g.Ordered) (hSums : g.SumsFit)
    (hOpens : ∀ v, opens v → isAccumulation g v = true) (v : ValueId) :
    ∃ tree, g.Unfolds opens v tree := by
  induction v using Nat.strong_induction_on with
  | _ v ih =>
    by_cases hOpen : opens v
    · -- The operands come before the sum, so their trees are there.
      obtain ⟨a, b, -, hOperands, -⟩ := hSums.exists_operands (hOpens v hOpen)
      obtain ⟨left, hLeft⟩ := ih a (hOrdered v a (by simp [hOperands]))
      obtain ⟨right, hRight⟩ := ih b (hOrdered v b (by simp [hOperands]))
      exact ⟨_, .sum hOpen hOperands hLeft hRight⟩
    · exact ⟨_, .term hOpen⟩

namespace Unfolds

theorem unique (h : g.Unfolds opens v tree) (h' : g.Unfolds opens v other) : other = tree := by
  induction h generalizing other with
  | term hNot =>
    cases h' with
    | term => rfl
    | sum hOpen => exact absurd hOpen hNot
  | sum hOpen hOperands _ _ ihLeft ihRight =>
    cases h' with
    | term hNot => exact absurd hOpen hNot
    | sum _ hOperands' hLeft' hRight' =>
      obtain ⟨rfl, rfl⟩ : _ ∧ _ := by simpa using hOperands.symm.trans hOperands'
      rw [ihLeft hLeft', ihRight hRight']

theorem eq_term (h : g.Unfolds opens v tree) (hNot : ¬ opens v) : tree = .term v :=
  unique (.term hNot) h

/-- No value at an end opens. -/
theorem not_opens (h : g.Unfolds opens v tree) : ∀ w ∈ tree.frontier, ¬ opens w := by
  induction h with
  | term hNot =>
    intro w hw
    obtain rfl := List.mem_singleton.mp hw
    exact hNot
  | sum _ _ _ _ ihLeft ihRight =>
    intro w hw
    exact (List.mem_append.mp hw).elim (ihLeft w) (ihRight w)

end Unfolds

/-! ## Contributions -/

/-- Enough fuel reaches the ends of the tree of a sum. -/
theorem collectTerms_eq_frontier (hOrdered : g.Ordered) {fuel : Nat} (hFuel : v < fuel)
    (hRoot : v ≤ root) (hOpen : g.Opens names root v)
    (h : g.Unfolds (g.Opens names root) v tree) :
    collectTerms g names fuel v = tree.frontier := by
  induction fuel generalizing v tree with
  | zero => exact absurd hFuel (Nat.not_lt_zero v)
  | succ fuel ih =>
    cases h with
    | term hNot => exact absurd hOpen hNot
    | @sum _ a b left right _ hOperands hLeft hRight =>
      -- Each operand stands for itself or for the ends of its own tree.
      have hPart : ∀ w part, w < v → g.Unfolds (g.Opens names root) w part →
          (if isAccumulation g w && !names.hasSymbol w then collectTerms g names fuel w
            else [w]) = part.frontier := by
        intro w part hLt hPart
        have hBelow : w < root := Nat.lt_of_lt_of_le hLt hRoot
        split
        · rename_i hNested
          exact ih (Nat.lt_of_lt_of_le hLt (Nat.lt_succ_iff.mp hFuel)) (Nat.le_of_lt hBelow)
            ((opens_iff_of_lt hBelow).mpr hNested) hPart
        · rename_i hWhole
          rw [hPart.eq_term (mt (opens_iff_of_lt hBelow).mp hWhole), SumTree.frontier]
      rw [collectTerms, hOperands, List.flatMap_cons, List.flatMap_cons, List.flatMap_nil,
        List.append_nil, hPart a left (hOrdered v a (by simp [hOperands])) hLeft,
        hPart b right (hOrdered v b (by simp [hOperands])) hRight, SumTree.frontier]

/-- **The contributions to a value are the ends of its tree**, from left to right. -/
theorem accumulationTerms_eq_frontier (hOrdered : g.Ordered)
    (h : g.Unfolds (g.Opens names root) root tree) :
    accumulationTerms g root names = tree.frontier := by
  unfold accumulationTerms
  split
  · rename_i hSum
    exact collectTerms_eq_frontier hOrdered (Nat.lt_succ_self root) (Nat.le_refl root)
      ⟨hSum, Or.inl rfl⟩ h
  · rename_i hSum
    rw [h.eq_term (mt Opens.isAccumulation hSum), SumTree.frontier]

theorem exists_accumulationTree (hOrdered : g.Ordered) (hSums : g.SumsFit) (names : NameTable)
    (root : ValueId) : ∃ tree, g.Unfolds (g.Opens names root) root tree ∧
      accumulationTerms g root names = tree.frontier := by
  obtain ⟨tree, hTree⟩ := exists_unfolds hOrdered hSums (fun _ => Opens.isAccumulation) root
  exact ⟨tree, hTree, accumulationTerms_eq_frontier hOrdered hTree⟩

end Graph

/-- The contributions that an accumulation collects are values before it. -/
theorem collectTerms_le {g : Graph} (hg : g.Ordered) (names : NameTable) (fuel : Nat)
    (v : ValueId) : ∀ w ∈ collectTerms g names fuel v, w ≤ v := by
  induction fuel generalizing v with
  | zero => exact fun w hw => (List.mem_singleton.mp hw).le
  | succ fuel ih =>
    intro w hw
    obtain ⟨operand, hOperand, hw⟩ := List.mem_flatMap.mp hw
    have hLt := hg v operand hOperand
    split at hw
    · exact Nat.le_of_lt (Nat.lt_of_le_of_lt (ih operand w hw) hLt)
    · exact Nat.le_of_lt ((List.mem_singleton.mp hw) ▸ hLt)

theorem lt_of_mem_accumulationTerms {g : Graph} (hg : g.Ordered) (names : NameTable) {v : ValueId}
    (h : isAccumulation g v = true) : ∀ w ∈ accumulationTerms g v names, w < v := by
  intro w hw
  rw [accumulationTerms, if_pos h] at hw
  obtain ⟨operand, hOperand, hw⟩ := List.mem_flatMap.mp hw
  have hLt := hg v operand hOperand
  split at hw
  · exact Nat.lt_of_le_of_lt (collectTerms_le hg names v operand w hw) hLt
  · exact (List.mem_singleton.mp hw) ▸ hLt

/-! ## Entries -/

namespace Graph

section Entries

variable {M : Type*} [AddCommMonoid M]

/-- The array of a value with the entries given. -/
def arrayOf (g : Graph) (entries : ValueId → Position → M) (v : ValueId) : Tensor M :=
  ⟨g.shape v, entries v⟩

/-- The entries of a sum of contributions are the sums of its operands' entries, with the last axes
aligned. Other values may have any entries. -/
def Accumulates (g : Graph) (entries : ValueId → Position → M) : Prop :=
  ∀ v a b, g.op? v = some (.accumulate, [a, b]) → ∀ p ∈ (g.shape v).box,
    entries v p = (g.arrayOf entries a).aligned p + (g.arrayOf entries b).aligned p

variable {g : Graph} {opens : ValueId → Prop} {v : ValueId} {tree : SumTree}
  {entries : ValueId → Position → M}

/-- **The shapes to which the ends of a tree stretch are those to which its root does.** -/
theorem Unfolds.below_iff (hSums : g.SumsFit) (hOpens : ∀ v, opens v → isAccumulation g v = true)
    (h : g.Unfolds opens v tree) (out : Shape) :
    (∀ w ∈ tree.frontier, (g.shape w).Below out) ↔ (g.shape v).Below out := by
  induction h with
  | term => simp [SumTree.frontier]
  | @sum v a b left right hOpen hOperands _ _ ihLeft ihRight =>
    obtain ⟨a', b', -, hOperands', hShape⟩ := hSums.exists_operands (hOpens v hOpen)
    obtain ⟨rfl, rfl⟩ : a = a' ∧ b = b' := by simpa using hOperands.symm.trans hOperands'
    -- The shape of the sum is the common shape of its operands, which is the least one.
    have hCommon : (g.shape v).Below out ↔ (g.shape a).Below out ∧ (g.shape b).Below out := by
      rw [← Shape.bounds_broadcast, hShape]
      simp [Shape.Bounds]
    rw [SumTree.frontier, List.forall_mem_append, ihLeft, ihRight, hCommon]

/-- Entries that add up to an operand, seen from the sum. -/
theorem sum_aligned_of_below {ws : List ValueId} {out : Shape}
    (hBelow : ∀ w ∈ ws, (g.shape w).Below (g.shape v))
    (hSum : ∀ p ∈ (g.shape v).box, (ws.map fun w => (g.arrayOf entries w).aligned p).sum =
      entries v p)
    (hv : (g.shape v).Below out) {p : Position} (hp : p ∈ out.box) :
    (ws.map fun w => (g.arrayOf entries w).aligned p).sum = (g.arrayOf entries v).aligned p := by
  show _ = entries v ((g.shape v).align p)
  rw [← hSum _ (Shape.align_mem_box hv hp)]
  congr 1
  apply List.map_congr_left
  intro w hw
  show entries w ((g.shape w).align p) = entries w ((g.shape w).align ((g.shape v).align p))
  rw [Shape.align_align (hBelow w hw) hv hp]

/-- **The entries at the ends of a tree add up to those at its root.** -/
theorem Unfolds.sum_frontier (hSums : g.SumsFit)
    (hOpens : ∀ v, opens v → isAccumulation g v = true) (hAccumulates : g.Accumulates entries)
    (h : g.Unfolds opens v tree) : ∀ p ∈ (g.shape v).box,
      (tree.frontier.map fun w => (g.arrayOf entries w).aligned p).sum = entries v p := by
  induction h with
  | @term v _ =>
    intro p hp
    rw [SumTree.frontier, List.map_singleton, List.sum_singleton]
    show entries v ((g.shape v).align p) = _
    rw [Shape.align_self hp]
  | @sum v a b left right hOpen hOperands hLeft hRight ihLeft ihRight =>
    intro p hp
    obtain ⟨a', b', hOp, hOperands', hShape⟩ := hSums.exists_operands (hOpens v hOpen)
    obtain ⟨rfl, rfl⟩ : a = a' ∧ b = b' := by simpa using hOperands.symm.trans hOperands'
    obtain ⟨ha, hb⟩ := Shape.below_of_broadcast hShape
    -- The ends on either side add up to that operand, aligned with this sum.
    rw [SumTree.frontier, List.map_append, List.sum_append,
      sum_aligned_of_below ((hLeft.below_iff hSums hOpens _).mpr (.refl _)) ihLeft ha hp,
      sum_aligned_of_below ((hRight.below_iff hSums hOpens _).mpr (.refl _)) ihRight hb hp,
      hAccumulates v a b hOp p hp]

end Entries

/-! ## Well-formed graphs -/

/-- What a well-formed graph computes adds up, whatever its operations mean. -/
theorem WellFormed.accumulates {R : Type*} [CommRing R] {g : Graph} (h : g.WellFormed)
    (I : Interpretation R) (inputs : ValueId → Position → R) :
    g.Accumulates fun v => g.entry I inputs v := by
  intro v a b hOp p _
  have hGet := op?_eq_some hOp
  show g.entry I inputs v p = _
  rw [entry_of_op hGet (h.before hGet)]
  rfl

theorem WellFormed.sumsFit {g : Graph} (h : g.WellFormed) : g.SumsFit := by
  intro v operands s hGet
  have hFits := h.fits hGet
  generalize hShapes : operands.map g.shape = shapes at hFits ⊢
  cases hFits with
  | accumulate hBroadcast =>
    exact ⟨by simpa using congrArg List.length hShapes, hBroadcast⟩

end Graph

end ArrayEquations
