import ArrayEquations.Proofs.ContractedAxes
import ArrayEquations.Proofs.FormulaSteps
import ArrayEquations.Proofs.ScopedSymbols
import ArrayEquations.Proofs.SummedAxes

/-!
# ArrayEquations — symbols needed at once

The primes of a symbol are counted in eight bits, so an alphabet has 256 symbols for each letter. A
search for one more never ends. How many symbols a formula needs at once can be read off the graph:
each contraction and each sum over axes on the way down from a value brings its own symbols into
scope, on top of those that were brought into scope before. As long as these fit into the alphabet,
every search ends, and it ends with the symbol that an unbounded count of primes gives.

## Main definitions

* `IndexScope.HasRoom` — so many symbols more can be brought into scope.
* `Builder.freeIndices?`, `contractedIndices?`, `reduceAxes?` — bringing the symbols of an equation,
  of a contraction and of a sum into scope, where a search may not end.
* `Graph.opened` — how many symbols the operation of a value brings into scope.
* `Expansion.Nests` — how many are in scope at once on a way down from a value.
* `EquationPlan.Needs` — how many an equation needs at once.

## Main results

* `Builder.freeIndices?_eq`, `contractedIndices?_eq`, `reduceAxes?_eq` — with room for them all
  symbols are found.
* `Expansion.nests_of_mem_collectTerms` — a contribution to an accumulation needs no more symbols
  than the accumulation.
* `Expansion.Nests.le` — no way down needs more symbols than all operations together.
-/

namespace ArrayEquations

/-! ## Room in a scope -/

namespace IndexScope

/-- The scope is over letters that differ, and so many symbols more can be brought into it. -/
structure HasRoom (s : IndexScope) (n : Nat) : Prop where
  letters_ne_nil : s.letters ≠ []
  nodup : s.letters.Nodup
  room : s.live.length + n ≤ 256 * s.letters.length

namespace HasRoom

variable {s inner : IndexScope} {m n : Nat} {bound : List Index}

theorem mono (h : s.HasRoom n) (hLe : m ≤ n) : s.HasRoom m :=
  ⟨h.letters_ne_nil, h.nodup, Nat.le_trans (Nat.add_le_add_left hLe _) h.room⟩

/-- There is more room with fewer symbols in scope. -/
theorem of_fewer {s' : IndexScope} (h : s.HasRoom n) (hLetters : s'.letters = s.letters)
    (hLive : s'.live.length ≤ s.live.length) : s'.HasRoom n := by
  refine ⟨hLetters ▸ h.letters_ne_nil, hLetters ▸ h.nodup, ?_⟩
  rw [hLetters]
  exact Nat.le_trans (Nat.add_le_add_right hLive n) h.room

/-- There is room for a symbol, and then for one symbol less. -/
theorem fresh (h : s.HasRoom (n + 1)) : s.fresh? = some s.fresh ∧ s.fresh.2.HasRoom n := by
  have hRoom := h.room
  refine ⟨fresh?_eq h.nodup (by omega), h.letters_ne_nil, h.nodup, ?_⟩
  show (s.live ++ [s.next]).length + n ≤ 256 * s.letters.length
  rw [List.length_append, List.length_singleton]
  omega

/-- Symbols that are brought into scope take up room. -/
theorem under (h : s.HasRoom (bound.length + n)) (hOpens : s.Opens bound inner) :
    inner.HasRoom n := by
  have hRoom := h.room
  refine ⟨hOpens.letters_eq ▸ h.letters_ne_nil, hOpens.letters_eq ▸ h.nodup, ?_⟩
  rw [hOpens.letters_eq, hOpens.live_eq, List.length_append]
  omega

end HasRoom

theorem hasRoom_ofAlphabet {alphabet : String} {n : Nat}
    (h : n ≤ 256 * (alphabetLetters alphabet).length) : (ofAlphabet alphabet).HasRoom n :=
  ⟨alphabetLetters_ne_nil alphabet, nodup_alphabetLetters alphabet, by rwa [ofAlphabet,
    List.length_nil, Nat.zero_add]⟩

end IndexScope

/-! ## Searches for several symbols -/

/-- A new index for every axis whose extent is not one, where a search may not end. -/
def Builder.freeIndices? : Shape → IndexScope → Option (Axes × IndexScope)
  | [], scope => some ([], scope)
  | extent :: rest, scope =>
    if extent = 1 then do
      let (axes, scope) ← freeIndices? rest scope
      return (none :: axes, scope)
    else do
      let (i, scope) ← scope.fresh?
      let (axes, scope) ← freeIndices? rest scope
      return (some i :: axes, scope)

/-- The pairs of contracted axes with their new indices, where a search may not end. -/
def contractedIndices? (lhs rhs : Shape) :
    List (Nat × Nat) → IndexScope → Option (List (Nat × Nat × Index) × IndexScope)
  | [], scope => some ([], scope)
  | (l, r) :: rest, scope =>
    if lhs.extent l = 1 || rhs.extent r = 1 then contractedIndices? lhs rhs rest scope
    else do
      let (i, scope) ← scope.fresh?
      let (pairs, scope) ← contractedIndices? lhs rhs rest scope
      return ((l, r, i) :: pairs, scope)

/-- The indices of a summed operand with the new ones among them, where a search may not end. -/
def reduceAxes? (axes : List Nat) :
    List (Nat × Nat) → Axes → IndexScope → Option (Axes × List Index × IndexScope)
  | [], _, scope => some ([], [], scope)
  | (extent, axis) :: rest, kept, scope =>
    if axes.contains axis then
      if extent = 1 then do
        let (operand, bound, scope) ← reduceAxes? axes rest kept scope
        return (none :: operand, bound, scope)
      else do
        let (i, scope) ← scope.fresh?
        let (operand, bound, scope) ← reduceAxes? axes rest kept scope
        return (some i :: operand, i :: bound, scope)
    else do
      let (operand, bound, scope) ← reduceAxes? axes rest kept.tail scope
      return (unlessSingle extent (kept.headD none) :: operand, bound, scope)

variable {scope : IndexScope}

theorem Builder.freeIndices?_eq {s : Shape} (h : scope.HasRoom s.nonSingleton.length) :
    freeIndices? s scope = some (freeIndices s scope) := by
  induction s generalizing scope with
  | nil => rfl
  | cons n s ih =>
    rw [freeIndices?, freeIndices]
    by_cases hn : n = 1
    · subst hn
      rw [if_pos rfl, if_pos rfl, ih h]
      rfl
    · rw [Shape.nonSingleton_cons hn, List.length_cons] at h
      obtain ⟨hFresh, hRest⟩ := h.fresh
      rw [if_neg hn, if_neg hn, hFresh]
      -- The symbol is the one of the unbounded search, so both go on from the same scope.
      show (do
        let (axes, inner) ← freeIndices? s scope.fresh.2
        return (some scope.next :: axes, inner)) = _
      rw [ih hRest]
      rfl

theorem contractedIndices?_eq {ls rs : Shape} {paired : List (Nat × Nat)}
    (h : scope.HasRoom (contractedIndices ls rs paired scope).1.length) :
    contractedIndices? ls rs paired scope = some (contractedIndices ls rs paired scope) := by
  induction paired generalizing scope with
  | nil => rfl
  | cons x rest ih =>
    obtain ⟨l, r⟩ := x
    rw [contractedIndices] at h
    rw [contractedIndices?, contractedIndices]
    split
    · rename_i hSingle
      rw [if_pos hSingle] at h
      exact ih h
    · rename_i hSingle
      rw [if_neg hSingle] at h
      obtain ⟨hFresh, hRest⟩ := h.fresh
      rw [hFresh]
      show (do
        let (pairs, inner) ← contractedIndices? ls rs rest scope.fresh.2
        return ((l, r, scope.next) :: pairs, inner)) = _
      rw [ih hRest]
      rfl

theorem reduceAxes?_eq {axes : List Nat} {paired : List (Nat × Nat)} {kept : Axes}
    (h : scope.HasRoom (summedExtents axes paired).length) :
    reduceAxes? axes paired kept scope = some (reduceAxes axes paired kept scope) := by
  induction paired generalizing kept scope with
  | nil => rfl
  | cons x rest ih =>
    obtain ⟨n, k⟩ := x
    rw [reduceAxes?]
    by_cases hk : axes.contains k = true
    · rw [if_pos hk]
      by_cases hn : n = 1
      · rw [summedExtents_cons_single hn] at h
        rw [if_pos hn, ih h, reduceAxes_cons_single hk hn]
        rfl
      · rw [summedExtents_cons_summed hk hn, List.length_cons] at h
        obtain ⟨hFresh, hRest⟩ := h.fresh
        rw [if_neg hn, hFresh, reduceAxes_cons_summed hk hn]
        show (do
          let (operand, bound, inner) ← reduceAxes? axes rest kept scope.fresh.2
          return (some scope.next :: operand, scope.next :: bound, inner)) = _
        rw [ih hRest]
        rfl
    · rw [summedExtents_cons_kept hk] at h
      rw [if_neg hk, ih h, reduceAxes_cons_kept hk]
      rfl

/-! ## Ways down -/

/-- How many symbols the operation of a value brings into scope: one for each pair of contracted
axes unless one of them has extent one, and one for each summed axis with another extent. -/
def Graph.opened (g : Graph) (v : ValueId) : Nat :=
  match g.op? v with
  | some (.contract axes, [a, b]) =>
    ((axes.lhsContract.zip axes.rhsContract).filter fun (l, r) =>
      !((g.shape a).extent l == 1 || (g.shape b).extent r == 1)).length
  | some (.reduceSum axes, [a]) => (summedExtents axes (g.shape a).zipIdx).length
  | _ => 0

namespace Expansion

/-- On a way down from the value, through operands of values that are expanded, so many symbols are
in scope at once. -/
inductive Nests (x : Expansion) : ValueId → Nat → Prop
  | here (v : ValueId) : Nests x v 0
  | operand {v w : ValueId} {n : Nat} (hExpands : x.Expands v) (hOperand : w ∈ x.graph.operands v)
      (h : Nests x w n) : Nests x v (x.graph.opened v + n)

/-- The scope has room for the symbols that the formula of a value needs at once. -/
def HasRoom (x : Expansion) (scope : IndexScope) (v : ValueId) : Prop :=
  ∀ n, x.Nests v n → scope.HasRoom n

variable {x : Expansion} {inner : IndexScope} {v w : ValueId} {n : Nat} {bound : List Index}

/-- What a value needs, its operands need under the symbols that it brings into scope. -/
theorem HasRoom.under (h : x.HasRoom scope v) (hExpands : x.Expands v)
    (hOperand : w ∈ x.graph.operands v) (hOpened : bound.length = x.graph.opened v)
    (hOpens : scope.Opens bound inner) : x.HasRoom inner w := by
  intro n hNests
  exact IndexScope.HasRoom.under (hOpened ▸ h _ (.operand hExpands hOperand hNests)) hOpens

/-- There is room for the symbols that the operation brings into scope. -/
theorem HasRoom.opened (h : x.HasRoom scope v) (hExpands : x.Expands v)
    (hOperand : w ∈ x.graph.operands v) : scope.HasRoom (x.graph.opened v) :=
  h _ (.operand hExpands hOperand (.here w))

/-- Where an operation brings no symbols into scope, its operands have the same room. -/
theorem HasRoom.operand (h : x.HasRoom scope v) (hExpands : x.Expands v)
    (hNone : x.graph.opened v = 0) (hOperand : w ∈ x.graph.operands v) : x.HasRoom scope w :=
  h.under hExpands hOperand (show ([] : List Index).length = _ from hNone.symm) (.nil scope)

theorem opened_of_isAccumulation {g : Graph} (h : isAccumulation g v = true) : g.opened v = 0 := by
  unfold isAccumulation at h
  unfold Graph.opened
  split at h
  · rename_i hOp
    rw [hOp]
  · exact absurd h (by simp)

/-- **A contribution to an accumulation needs no more symbols than the accumulation**, and neither
does one that comes from another accumulation on the way. -/
theorem nests_of_mem_collectTerms {fuel : Nat} (hExpands : x.Expands v)
    (hAccumulation : isAccumulation x.graph v = true)
    (hw : w ∈ collectTerms x.graph x.names fuel v) (h : x.Nests w n) : x.Nests v n := by
  induction fuel generalizing v with
  | zero =>
    obtain rfl := List.mem_singleton.mp hw
    exact h
  | succ fuel ih =>
    obtain ⟨u, hu, hw⟩ := List.mem_flatMap.mp hw
    -- A term comes from an operand, either as it is or from an accumulation that it is.
    have hBelow : x.Nests u n := by
      split at hw
      · rename_i hNested
        obtain ⟨hAccumulation, hFree⟩ := Bool.and_eq_true_iff.mp hNested
        exact ih (Or.inr (by simpa [NameTable.hasSymbol] using hFree)) hAccumulation hw
      · obtain rfl := List.mem_singleton.mp hw
        exact h
    -- The accumulation itself brings nothing into scope.
    have hStep := Nests.operand hExpands hu hBelow
    rwa [opened_of_isAccumulation hAccumulation, Nat.zero_add] at hStep

/-- No way down needs more symbols than are brought into scope by all operations up to the first
value, since operands come before their operation. -/
theorem Nests.le (hGraph : x.graph.Ordered) (h : x.Nests v n) :
    n ≤ ((List.range (v + 1)).map x.graph.opened).sum := by
  have hSum : ∀ m, ((List.range (m + 1)).map x.graph.opened).sum =
      ((List.range m).map x.graph.opened).sum + x.graph.opened m := by
    intro m
    rw [List.range_succ, List.map_append, List.sum_append, List.map_singleton,
      List.sum_singleton]
  have hMono : ∀ {k m : Nat}, k ≤ m → ((List.range k).map x.graph.opened).sum ≤
      ((List.range m).map x.graph.opened).sum := by
    intro k m hLe
    obtain ⟨d, rfl⟩ := Nat.exists_eq_add_of_le hLe
    rw [List.range_add, List.map_append, List.sum_append]
    exact Nat.le_add_right _ _
  induction h with
  | here => exact Nat.zero_le _
  | @operand v w n _ hOperand _ ih =>
    -- What the operand needs is among what is brought into scope before this value.
    have hBelow := hMono (show w + 1 ≤ v from hGraph v w hOperand)
    rw [hSum]
    omega

end Expansion

/-! ## Operations -/

variable {g : Graph} {v a b : ValueId}

theorem Graph.opened_contract {axes : ContractionAxes}
    (hOp : g.op? v = some (.contract axes, [a, b])) (scope : IndexScope) :
    ((contractedIndices (g.shape a) (g.shape b) (axes.lhsContract.zip axes.rhsContract) scope).1.map
      (·.2.2)).length = g.opened v := by
  rw [Graph.opened, hOp]
  show _ = ((axes.lhsContract.zip axes.rhsContract).filter fun (l, r) =>
    !((g.shape a).extent l == 1 || (g.shape b).extent r == 1)).length
  rw [← map_contractedIndices (g.shape a) (g.shape b) _ scope, List.length_map, List.length_map]

theorem Graph.opened_reduceSum {axes : List Nat} (hOp : g.op? v = some (.reduceSum axes, [a])) :
    g.opened v = (summedExtents axes (g.shape a).zipIdx).length := by
  rw [Graph.opened, hOp]

/-- Other operations bring no symbols into scope. -/
theorem Graph.opened_eq_zero {op : Operation} {operands : List ValueId}
    (hOp : g.op? v = some (op, operands)) (hContract : ∀ axes, op ≠ .contract axes)
    (hReduce : ∀ axes, op ≠ .reduceSum axes) : g.opened v = 0 := by
  rw [Graph.opened, hOp]
  split
  · rename_i axes _ _ hSame
    exact absurd (Prod.mk.inj (Option.some.inj hSame)).1 (hContract axes)
  · rename_i axes _ hSame
    exact absurd (Prod.mk.inj (Option.some.inj hSame)).1 (hReduce axes)
  · rfl

/-! ## Equations -/

/-- The equation is about the operation of its root, which has no symbol or the one on the left;
otherwise the root is written as its own symbol. -/
def EquationPlan.Expanded (p : EquationPlan) (names : NameTable) : Prop :=
  names.symbol? p.root = none ∨ names.symbol? p.root = some p.symbol

/-- So many symbols are in scope at once while the equation is built: those of its left-hand side,
and with them those on a way down from the root if that is expanded. -/
inductive EquationPlan.Needs (p : EquationPlan) (g : Graph) (names : NameTable) : Nat → Prop
  | left : Needs p g names (g.shape p.root).nonSingleton.length
  | right {n : Nat} (hExpanded : p.Expanded names)
      (h : Expansion.Nests ⟨g, names, some p.root⟩ p.root n) :
      Needs p g names ((g.shape p.root).nonSingleton.length + n)

/-- A bound that does not depend on symbols. -/
theorem EquationPlan.Needs.le {p : EquationPlan} {names : NameTable} {n : Nat} (hGraph : g.Ordered)
    (h : p.Needs g names n) : n ≤ (g.shape p.root).nonSingleton.length +
      ((List.range (p.root + 1)).map g.opened).sum := by
  cases h with
  | left => exact Nat.le_add_right _ _
  | right _ hNests => exact Nat.add_le_add_left (hNests.le hGraph) _

end ArrayEquations
