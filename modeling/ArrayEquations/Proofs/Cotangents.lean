import ArrayEquations.Derivative.Reverse
import ArrayEquations.Proofs.Differential

/-!
# ArrayEquations — carrying cotangents back

The arrays that a reverse differentiation stands for, without the recording. A value's
cotangent is handed on to the operands of its operation, from the last value to the first.

The invariant is a sum: over the operations that are still ahead, and over all inputs and
constants, the cotangents pair with the tangents to the same total all the way. It starts
as the pairing of the outputs and ends as that of the chosen arguments.

## Main definitions

* `Cotangents` — the cotangent of each value that has one.
* `Reverse.pullbacks` — what an operation hands to its operands.
* `Reverse.handOn` — one step back.
* `Cotangents.total` — the invariant.

## Main results

* `Reverse.total_handOn`, `Reverse.total_foldlM_handOn` — one step and all steps keep the total.
* `tangent_eq_zero_of_not_depends` — a value outside `dependents` has no tangent.
-/

namespace ArrayEquations

variable {K : Type*} [Field K]

/-- The sum of products of two arrays of a shape. -/
def Shape.inner (s : Shape) (c t : Position → K) : K := ∑ p ∈ s.box, c p * t p

namespace Shape

theorem inner_add_left (s : Shape) (c c' t : Position → K) :
    s.inner (c + c') t = s.inner c t + s.inner c' t := by
  simp only [inner, Pi.add_apply, add_mul, Finset.sum_add_distrib]

theorem inner_zero_left (s : Shape) (t : Position → K) : s.inner 0 t = 0 := by
  simp [inner]

theorem inner_congr_right {s : Shape} {c t t' : Position → K} (h : ∀ p ∈ s.box, t p = t' p) :
    s.inner c t = s.inner c t' :=
  Finset.sum_congr rfl fun p hp => by rw [h p hp]

theorem inner_list_sum {ι : Type*} (s : Shape) (c : Position → K) (l : List ι)
    (t : ι → Position → K) :
    s.inner c (fun p => (l.map fun i => t i p).sum) = (l.map fun i => s.inner c (t i)).sum := by
  induction l with
  | nil => simp [inner]
  | cons i l ih =>
    simp only [List.map_cons, List.sum_cons, ← ih]
    simp only [inner, mul_add, Finset.sum_add_distrib]

theorem inner_eq_zero {s : Shape} {t : Position → K} (h : ∀ p ∈ s.box, t p = 0)
    (c : Position → K) : s.inner c t = 0 :=
  Finset.sum_eq_zero fun p hp => by rw [h p hp, mul_zero]

end Shape

/-! ## Cotangents -/

/-- The cotangent of each value that has one. -/
abbrev Cotangents (K : Type*) := ValueId → Option (Position → K)

namespace Cotangents

/-- No value has a cotangent. -/
def none : Cotangents K := fun _ => .none

/-- The entries of a cotangent; zero where there is none. -/
def entries (c : Cotangents K) (v : ValueId) : Position → K := (c v).getD 0

/-- Adds an array to the cotangent of a value. -/
def add (c : Cotangents K) (v : ValueId) (e : Position → K) : Cotangents K := fun w =>
  if w = v then some (c.entries v + e) else c w

/-- Adds arrays to the cotangents of values, one after the other. -/
def addAll (c : Cotangents K) (shares : List (ValueId × (Position → K))) : Cotangents K :=
  shares.foldl (fun c share => c.add share.1 share.2) c

/-- The pairing of the cotangents of some values with arrays `t`. -/
def total (c : Cotangents K) (g : Graph) (t : ValueId → Position → K) (values : Finset ValueId) :
    K :=
  ∑ v ∈ values, (g.shape v).inner (c.entries v) (t v)

variable {c : Cotangents K} {g : Graph} {t : ValueId → Position → K} {values : Finset ValueId}

theorem entries_add_self (c : Cotangents K) (v : ValueId) (e : Position → K) :
    (c.add v e).entries v = c.entries v + e := by
  rw [entries, add, if_pos rfl]
  rfl

theorem entries_add_of_ne {v w : ValueId} (h : w ≠ v) (e : Position → K) :
    (c.add v e).entries w = c.entries w := by
  rw [entries, add, if_neg h]
  rfl

theorem total_none (g : Graph) (t : ValueId → Position → K) (values : Finset ValueId) :
    (none : Cotangents K).total g t values = 0 :=
  Finset.sum_eq_zero fun v _ => (g.shape v).inner_zero_left (t v)

theorem total_add {v : ValueId} (hv : v ∈ values) (e : Position → K) :
    (c.add v e).total g t values = c.total g t values + (g.shape v).inner e (t v) := by
  rw [total, total, ← Finset.add_sum_erase _ _ hv, ← Finset.add_sum_erase _ _ hv,
    entries_add_self, Shape.inner_add_left]
  have hRest : ∑ w ∈ values.erase v, (g.shape w).inner ((c.add v e).entries w) (t w) =
      ∑ w ∈ values.erase v, (g.shape w).inner (c.entries w) (t w) := by
    apply Finset.sum_congr rfl
    intro w hw
    rw [entries_add_of_ne (Finset.ne_of_mem_erase hw)]
  rw [hRest]
  ring

theorem total_addAll {shares : List (ValueId × (Position → K))}
    (h : ∀ y ∈ shares, y.1 ∈ values) :
    (c.addAll shares).total g t values =
      c.total g t values + (shares.map fun y => (g.shape y.1).inner y.2 (t y.1)).sum := by
  induction shares generalizing c with
  | nil => exact (add_zero _).symm
  | cons y shares ih =>
    have hRest : ∀ z ∈ shares, z.1 ∈ values := fun z hz => h z (List.mem_cons_of_mem _ hz)
    show ((c.add y.1 y.2).addAll shares).total g t values = _
    rw [ih hRest, total_add (h y List.mem_cons_self), List.map_cons, List.sum_cons, add_assoc]

end Cotangents

/-! ## Values without a tangent -/

section Dependents

variable {I : Interpretation K} {inputs tangents : ValueId → Position → K} {g : Graph}
  {sources : List ValueId}

private theorem foldl_range {σ : Type*} {f : σ → Nat → σ} {P : Nat → σ → Prop} {s : σ} {n : Nat}
    (hStart : P 0 s) (hStep : ∀ k < n, ∀ s, P k s → P (k + 1) (f s k)) :
    P n ((List.range n).foldl f s) := by
  suffices h : ∀ k ≤ n, P k ((List.range k).foldl f s) from h n (Nat.le_refl n)
  intro k
  induction k with
  | zero => exact fun _ => hStart
  | succ k ih =>
    intro hk
    rw [List.range_succ, List.foldl_append]
    exact hStep k hk _ (ih (Nat.le_of_succ_le hk))

/-- What holds of the values found so far, if it holds at the start and each value keeps it: an
operation is found if an operand was, anything else if it is a source. -/
private theorem dependents_induction {P : Nat → List ValueId → Prop} (hStart : P 0 [])
    (hOp : ∀ v op operands, g.op? v = some (op, operands) → ∀ found, P v found →
      P (v + 1) (if operands.any found.contains then v :: found else found))
    (hNone : ∀ v < g.size, g.op? v = none → ∀ found, P v found →
      P (v + 1) (if sources.contains v then v :: found else found)) :
    P g.size (dependents g sources) := by
  unfold dependents Graph.ids
  apply foldl_range hStart
  intro v hv found hFound
  cases h : g.op? v with
  | none => exact hNone v hv h found hFound
  | some made => exact hOp v made.1 made.2 h found hFound

/-- No constant depends on an input. -/
theorem literal?_of_mem_dependents (hSources : ∀ a ∈ sources, g.literal? a = none) :
    ∀ v ∈ dependents g sources, g.literal? v = none := by
  apply @dependents_induction g sources fun _ found => ∀ v ∈ found, g.literal? v = none
  · simp
  · -- What is found is an operation here, and an input below; neither is a constant.
    intro v op operands hOp found h w hw
    have hv : g.literal? v = none := by
      rw [Graph.literal?, Graph.op?_eq_some hOp]
      rfl
    split at hw
    · rcases List.mem_cons.mp hw with rfl | hw
      · exact hv
      · exact h w hw
    · exact h w hw
  · intro v _ _ found h w hw
    split at hw
    · rename_i hSource
      rcases List.mem_cons.mp hw with rfl | hw
      · exact hSources w (List.contains_iff_mem.mp hSource)
      · exact h w hw
    · exact h w hw

/-- A source that is no operation is among the values that depend on it. -/
theorem mem_dependents {v : ValueId} (hMem : v ∈ sources) (hv : v < g.size)
    (hLeaf : g.op? v = none) : v ∈ dependents g sources := by
  refine @dependents_induction g sources (fun n found => v < n → v ∈ found) ?_ ?_ ?_ hv
  · exact fun h => absurd h (Nat.not_lt_zero v)
  · intro n op operands hOp found h hn
    -- The value is no operation, so it was found before.
    have hOld : v ∈ found := by
      rcases Nat.lt_succ_iff_lt_or_eq.mp hn with hn | rfl
      · exact h hn
      · rw [hLeaf] at hOp
        exact absurd hOp (by simp)
    split
    · exact List.mem_cons_of_mem n hOld
    · exact hOld
  · intro n _ _ found h hn
    rcases Nat.lt_succ_iff_lt_or_eq.mp hn with hn | rfl
    · split
      · exact List.mem_cons_of_mem n (h hn)
      · exact h hn
    · rw [if_pos (List.contains_iff_mem.mpr hMem)]
      exact List.mem_cons_self

private theorem not_mem_of_ite {condition : Bool} {v w : ValueId} {found : List ValueId}
    (h : w ∉ if condition = true then v :: found else found) :
    w ∉ found ∧ (w = v → condition = false) := by
  cases condition with
  | true =>
    rw [if_pos rfl, List.mem_cons, not_or] at h
    exact ⟨h.2, fun hEq => absurd hEq h.1⟩
  | false => exact ⟨h, fun _ => rfl⟩

/-- **A value that does not depend on the sources has no tangent.** -/
theorem tangent_eq_zero_of_not_depends (hg : g.WellFormed) :
    ∀ v < g.size, v ∉ dependents g sources → ∀ p ∈ (g.shape v).box,
      g.recordedTangent I inputs (directionOf sources tangents) v p = 0 := by
  apply @dependents_induction g sources fun n found => ∀ v < n, v ∉ found →
    ∀ p ∈ (g.shape v).box, g.recordedTangent I inputs (directionOf sources tangents) v p = 0
  · exact fun v hv => absurd hv (Nat.not_lt_zero v)
  · intro n op operands hOp found ih v hv hNot p hp
    obtain ⟨hOld, hCondition⟩ := not_mem_of_ite hNot
    rcases Nat.lt_succ_iff_lt_or_eq.mp hv with hv | rfl
    · exact ih v hv hOld p hp
    · have hGet := Graph.op?_eq_some hOp
      -- An operation was not found, so no operand was, and all their tangents are zero.
      apply Graph.recordedTangent_eq_zero hg hGet _ hp
      intro w hw
      have hFound := List.any_eq_false.mp (hCondition rfl) w hw
      exact ih w (hg.before hGet w hw) fun hMem => hFound (List.contains_iff_mem.mpr hMem)
  · intro n hn hOp found ih v hv hNot p hp
    obtain ⟨hOld, hCondition⟩ := not_mem_of_ite hNot
    rcases Nat.lt_succ_iff_lt_or_eq.mp hv with hv | rfl
    · exact ih v hv hOld p hp
    · obtain ⟨⟨content, s⟩, hGet⟩ := Graph.exists_get? hn
      cases content with
      | leaf =>
        have hSource : v ∉ sources := by simpa using hCondition rfl
        rw [Graph.recordedTangent_of_leaf hGet, directionOf, if_neg hSource]
        rfl
      | literal c => exact Graph.recordedTangent_of_literal hGet p
      | op op operands =>
        rw [Graph.op?_of_get? hGet] at hOp
        exact absurd hOp (by simp)

end Dependents

/-! ## Going back -/

/-- The cotangent of an operand pairs as that of the result does. -/
theorem Graph.inner_pulledBack {I : Interpretation K} {inputs : ValueId → Position → K} {g : Graph}
    {op : Operation} {operands : List ValueId} {out : Shape}
    (hFits : op.Fits (operands.map g.shape) out) {slot : Nat} (hSlot : slot ∈ op.slots)
    (ct t : Position → K) :
    (g.shape (operands.getD slot 0)).inner (g.pulledBack I inputs op operands slot out ct) t =
      out.inner ct (g.part I inputs op operands slot t out) := by
  have h := @Operation.pairing_pullback _ _ I (g.literal? (operands.getD 1 0)) op _ out
    (fits_tensors I inputs hFits) slot ct t
  rw [map_shape_tensor, (getD_mem_of_mem_slots hFits hSlot).2] at h
  exact h

/-- The values that still hand on their cotangents once those from `n` on have, and those that
never do. -/
def Graph.pending (g : Graph) (n : Nat) : Finset ValueId :=
  (Finset.range g.size).filter fun v => v < n ∨ g.op? v = none

theorem Graph.mem_pending {g : Graph} {n : Nat} {v : ValueId} :
    v ∈ g.pending n ↔ v < g.size ∧ (v < n ∨ g.op? v = none) := by
  rw [pending, Finset.mem_filter, Finset.mem_range]

theorem Graph.pending_size (g : Graph) : g.pending g.size = Finset.range g.size := by
  ext v
  rw [mem_pending, Finset.mem_range]
  tauto

theorem Graph.pending_succ_of_none {g : Graph} {v : ValueId} (h : g.op? v = none) :
    g.pending (v + 1) = g.pending v := by
  ext w
  rw [mem_pending, mem_pending, Nat.lt_succ_iff_lt_or_eq]
  constructor
  · rintro ⟨hw, (hLt | rfl) | hNone⟩
    · exact ⟨hw, Or.inl hLt⟩
    · exact ⟨hw, Or.inr h⟩
    · exact ⟨hw, Or.inr hNone⟩
  · rintro ⟨hw, hLt | hNone⟩
    · exact ⟨hw, Or.inl (Or.inl hLt)⟩
    · exact ⟨hw, Or.inr hNone⟩

theorem Graph.pending_succ {g : Graph} {v : ValueId} (hv : v < g.size)
    (h : g.op? v ≠ none) :
    v ∉ g.pending v ∧ g.pending (v + 1) = insert v (g.pending v) := by
  constructor
  · intro hMem
    rcases (mem_pending.mp hMem).2 with hLt | hNone
    · exact Nat.lt_irrefl v hLt
    · exact h hNone
  · ext w
    rw [Finset.mem_insert, mem_pending, mem_pending, Nat.lt_succ_iff_lt_or_eq]
    constructor
    · rintro ⟨hw, (hLt | rfl) | hNone⟩
      · exact Or.inr ⟨hw, Or.inl hLt⟩
      · exact Or.inl rfl
      · exact Or.inr ⟨hw, Or.inr hNone⟩
    · rintro (rfl | ⟨hw, hLt | hNone⟩)
      · exact ⟨hv, Or.inl (Or.inr rfl)⟩
      · exact ⟨hw, Or.inl (Or.inl hLt)⟩
      · exact ⟨hw, Or.inr hNone⟩

namespace Reverse

/-- The operand with its cotangent, if it depends on a chosen argument. -/
def share (x : Reverse) (operand : ValueId) (cotangent : Position → K) :
    List (ValueId × (Position → K)) :=
  if x.depends.contains operand then [(operand, cotangent)] else []

/-- The pullbacks of a cotangent for the operands that depend on a chosen argument. -/
def pullbacks (I : Interpretation K) (inputs : ValueId → Position → K) (x : Reverse)
    (op : Operation) (operands : List ValueId) (out : Shape) (ct : Position → K) :
    List (ValueId × (Position → K)) :=
  op.slots.flatMap fun slot =>
    x.share (operands.getD slot 0) (x.graph.pulledBack I inputs op operands slot out ct)

/-- One step back: a cotangent is handed on to the operands. There is no way through a foreign
operation. -/
def handOn (I : Interpretation K) (inputs : ValueId → Position → K) (x : Reverse)
    (c : Cotangents K) (v : ValueId) : Except DerivativeError (Cotangents K) :=
  match c v, x.graph.op? v with
  | some _, some (.foreign name, _) => .error (.noRule name)
  | some ct, some (op, operands) =>
    .ok (c.addAll (x.pullbacks I inputs op operands (x.graph.shape v) ct))
  | _, _ => .ok c

variable {I : Interpretation K} {inputs : ValueId → Position → K} {x : Reverse}
  {c c' : Cotangents K} {v : ValueId} {op : Operation} {operands : List ValueId}
  {t : ValueId → Position → K}

theorem handOn_of_none (h : c v = none) : x.handOn I inputs c v = .ok c := by
  rw [handOn, h]

theorem handOn_of_leaf (h : x.graph.op? v = none) : x.handOn I inputs c v = .ok c := by
  rw [handOn, h]
  cases c v <;> rfl

theorem handOn_of_foreign {ct : Position → K} {name : String} (hc : c v = some ct)
    (hOp : x.graph.op? v = some (.foreign name, operands)) :
    x.handOn I inputs c v = .error (.noRule name) := by
  rw [handOn, hc, hOp]

theorem handOn_of_op {ct : Position → K} (hc : c v = some ct)
    (hOp : x.graph.op? v = some (op, operands)) (hForeign : ∀ name, op ≠ .foreign name) :
    x.handOn I inputs c v =
      .ok (c.addAll (x.pullbacks I inputs op operands (x.graph.shape v) ct)) := by
  rw [handOn, hc, hOp]
  cases op with
  | foreign name => exact absurd rfl (hForeign name)
  | _ => rfl

theorem mem_of_mem_pullbacks {s : Shape} (hFits : op.Fits (operands.map x.graph.shape) s)
    {ct : Position → K} {y : ValueId × (Position → K)}
    (hy : y ∈ x.pullbacks I inputs op operands s ct) : y.1 ∈ operands := by
  obtain ⟨slot, hSlot, hy⟩ := List.mem_flatMap.mp hy
  rw [share] at hy
  split at hy
  · rw [List.mem_singleton.mp hy]
    exact (Graph.getD_mem_of_mem_slots hFits hSlot).1
  · exact absurd hy List.not_mem_nil

/-- Shares pair as what is shared does, where a value that does not depend on a chosen argument
has no tangent. -/
theorem sum_shares {ι : Type*} {l : List ι} {target : ι → ValueId} {e : ι → Position → K}
    (hZero : ∀ i ∈ l, x.depends.contains (target i) = false →
      ∀ p ∈ (x.graph.shape (target i)).box, t (target i) p = 0) :
    ((l.flatMap fun i => x.share (target i) (e i)).map fun y =>
        (x.graph.shape y.1).inner y.2 (t y.1)).sum =
      (l.map fun i => (x.graph.shape (target i)).inner (e i) (t (target i))).sum := by
  induction l with
  | nil => rfl
  | cons i l ih =>
    have hShare : ((x.share (target i) (e i)).map fun y =>
        (x.graph.shape y.1).inner y.2 (t y.1)).sum =
          (x.graph.shape (target i)).inner (e i) (t (target i)) := by
      rw [share]
      split
      · exact List.sum_singleton
      · rename_i hDepends
        exact (Shape.inner_eq_zero (hZero i List.mem_cons_self (by simpa using hDepends)) _).symm
    rw [List.flatMap_cons, List.map_append, List.sum_append, List.map_cons, List.sum_cons, hShare,
      ih fun k hk => hZero k (List.mem_cons_of_mem _ hk)]

/-- What is handed on pairs as the cotangent itself does. -/
theorem sum_pullbacks {s : Shape} (hFits : op.Fits (operands.map x.graph.shape) s)
    (hZero : ∀ w ∈ operands, x.depends.contains w = false →
      ∀ p ∈ (x.graph.shape w).box, t w p = 0) (ct : Position → K) :
    ((x.pullbacks I inputs op operands s ct).map fun y =>
        (x.graph.shape y.1).inner y.2 (t y.1)).sum =
      (op.slots.map fun slot => s.inner ct
        (x.graph.part I inputs op operands slot (t (operands.getD slot 0)) s)).sum := by
  rw [pullbacks, sum_shares fun slot hSlot =>
    hZero _ (Graph.getD_mem_of_mem_slots hFits hSlot).1]
  congr 1
  apply List.map_congr_left
  intro slot hSlot
  exact Graph.inner_pulledBack hFits hSlot _ _

/-- **One step back keeps the total.** -/
theorem total_handOn {tangents : ValueId → Position → K} (hg : x.graph.WellFormed)
    (hZero : ∀ w < x.graph.size, x.depends.contains w = false → ∀ p ∈ (x.graph.shape w).box,
      x.graph.recordedTangent I inputs tangents w p = 0)
    (hv : v < x.graph.size) (h : x.handOn I inputs c v = .ok c') :
    c'.total x.graph (x.graph.recordedTangent I inputs tangents) (x.graph.pending v) =
      c.total x.graph (x.graph.recordedTangent I inputs tangents) (x.graph.pending (v + 1)) := by
  cases hOp : x.graph.op? v with
  | none =>
    rw [handOn_of_leaf hOp] at h
    rw [← Except.ok.inj h, x.graph.pending_succ_of_none hOp]
  | some made =>
    obtain ⟨op, operands⟩ := made
    have hGet := Graph.op?_eq_some hOp
    obtain ⟨hNot, hInsert⟩ := x.graph.pending_succ hv (by simp [hOp])
    rw [hInsert, Cotangents.total, Cotangents.total, Finset.sum_insert hNot]
    cases hc : c v with
    | none =>
      rw [handOn_of_none hc] at h
      have hEntries : c.entries v = 0 := by rw [Cotangents.entries, hc]; rfl
      rw [← Except.ok.inj h, hEntries, Shape.inner_zero_left, zero_add]
    | some ct =>
      have hForeign : ∀ name, op ≠ .foreign name := by
        rintro name rfl
        rw [handOn_of_foreign hc hOp] at h
        exact absurd h (by simp)
      have hEntries : c.entries v = ct := by rw [Cotangents.entries, hc]; rfl
      have hFits := hg.fits hGet
      have hLt : ∀ w ∈ operands, w < v := hg.before hGet
      -- What is handed on goes to earlier values, which are all still to be passed.
      have hPending : ∀ y ∈ x.pullbacks I inputs op operands (x.graph.shape v) ct,
          y.1 ∈ x.graph.pending v := by
        intro y hy
        have hw := hLt _ (mem_of_mem_pullbacks hFits hy)
        exact Graph.mem_pending.mpr ⟨Nat.lt_trans hw hv, Or.inl hw⟩
      have hTangent : (x.graph.shape v).inner ct (x.graph.recordedTangent I inputs tangents v) =
          (op.slots.map fun slot => (x.graph.shape v).inner ct (x.graph.part I inputs op operands
            slot (x.graph.recordedTangent I inputs tangents (operands.getD slot 0))
              (x.graph.shape v))).sum := by
        rw [← Shape.inner_list_sum]
        exact Shape.inner_congr_right fun p _ => Graph.recordedTangent_of_op hg hGet p
      rw [handOn_of_op hc hOp hForeign] at h
      -- The pairing with the tangent of the result is the sum of those with the operands' tangents.
      rw [← Except.ok.inj h, hEntries, hTangent, ← sum_pullbacks hFits fun w hw =>
        hZero w (Nat.lt_trans (hLt w hw) hv), add_comm]
      exact Cotangents.total_addAll hPending

/-- **All steps keep the total.** -/
theorem total_foldlM_handOn {tangents : ValueId → Position → K} (hg : x.graph.WellFormed)
    (hZero : ∀ w < x.graph.size, x.depends.contains w = false → ∀ p ∈ (x.graph.shape w).box,
      x.graph.recordedTangent I inputs tangents w p = 0)
    (h : x.graph.ids.reverse.foldlM (x.handOn I inputs) c = .ok c') :
    c'.total x.graph (x.graph.recordedTangent I inputs tangents) (x.graph.pending 0) =
      c.total x.graph (x.graph.recordedTangent I inputs tangents) (Finset.range x.graph.size) := by
  -- The way back runs from the last value to the first, so the induction is on how many values are
  -- left to pass.
  suffices hBelow : ∀ n ≤ x.graph.size, ∀ c : Cotangents K,
      (List.range n).reverse.foldlM (x.handOn I inputs) c = .ok c' →
      c'.total x.graph (x.graph.recordedTangent I inputs tangents) (x.graph.pending 0) =
        c.total x.graph (x.graph.recordedTangent I inputs tangents) (x.graph.pending n) by
    rw [hBelow x.graph.size (Nat.le_refl _) c h, x.graph.pending_size]
  intro n
  induction n with
  | zero =>
    intro _ c h
    rw [Except.ok.inj h]
  | succ n ih =>
    intro hn c h
    rw [List.range_succ, List.reverse_append, List.reverse_singleton, List.singleton_append,
      List.foldlM_cons] at h
    obtain ⟨c₁, hFirst, hRest⟩ := bind_eq_ok h
    rw [ih (Nat.le_of_succ_le hn) c₁ hRest, total_handOn hg hZero hn hFirst]

/-- The cotangents at the start, from arrays for the outputs. -/
def seeded (x : Reverse) (outputs : List (ValueId × (Position → K))) : Cotangents K :=
  Cotangents.none.addAll (outputs.flatMap fun o => x.share o.1 o.2)

/-- The total at the start is the pairing of the outputs. -/
theorem total_seeded {outputs : List (ValueId × (Position → K))}
    (hOutputs : ∀ o ∈ outputs, o.1 < x.graph.size)
    (hZero : ∀ w < x.graph.size, x.depends.contains w = false → ∀ p ∈ (x.graph.shape w).box,
      t w p = 0) :
    (x.seeded outputs).total x.graph t (Finset.range x.graph.size) =
      (outputs.map fun o => (x.graph.shape o.1).inner o.2 (t o.1)).sum := by
  have hRange : ∀ y ∈ outputs.flatMap fun o => x.share o.1 o.2,
      y.1 ∈ Finset.range x.graph.size := by
    intro y hy
    obtain ⟨o, ho, hy⟩ := List.mem_flatMap.mp hy
    rw [share] at hy
    split at hy
    · rw [List.mem_singleton.mp hy]
      exact Finset.mem_range.mpr (hOutputs o ho)
    · exact absurd hy List.not_mem_nil
  rw [seeded, Cotangents.total_addAll hRange, Cotangents.total_none, zero_add,
    sum_shares fun o ho => hZero o.1 (hOutputs o ho)]

/-- The total at the end is the pairing of the chosen arguments. -/
theorem total_end {tangents : ValueId → Position → K} {wrt : List ValueId} (hNodup : wrt.Nodup)
    (hLeaf : ∀ a ∈ wrt, x.graph.get? a = some ⟨.leaf, x.graph.shape a⟩) (c : Cotangents K) :
    c.total x.graph (x.graph.recordedTangent I inputs (directionOf wrt tangents))
        (x.graph.pending 0) =
      (wrt.map fun a => (x.graph.shape a).inner (c.entries a) (tangents a)).sum := by
  have hWrt : ∀ a ∈ wrt, a ∈ x.graph.pending 0 := by
    intro a ha
    refine Graph.mem_pending.mpr ⟨Graph.lt_size_of_get? (hLeaf a ha), Or.inr ?_⟩
    rw [Graph.op?, hLeaf a ha]
    rfl
  rw [← List.sum_toFinset _ hNodup, Cotangents.total]
  symm
  calc ∑ a ∈ wrt.toFinset, (x.graph.shape a).inner (c.entries a) (tangents a)
      = ∑ a ∈ wrt.toFinset, (x.graph.shape a).inner (c.entries a)
          (x.graph.recordedTangent I inputs (directionOf wrt tangents) a) := by
        apply Finset.sum_congr rfl
        intro a ha
        have ha := List.mem_toFinset.mp ha
        apply Shape.inner_congr_right
        intro p _
        rw [Graph.recordedTangent_of_leaf (hLeaf a ha), directionOf, if_pos ha]
    _ = _ := by
        apply Finset.sum_subset
        · exact fun a ha => hWrt a (List.mem_toFinset.mp ha)
        · intro v hv hNot
          -- A value that hands nothing on is an argument that is not chosen, or a constant.
          obtain ⟨hLt, hv⟩ := Graph.mem_pending.mp hv
          have hOp := hv.resolve_left (Nat.not_lt_zero v)
          have hNot : v ∉ wrt := fun hMem => hNot (List.mem_toFinset.mpr hMem)
          apply Shape.inner_eq_zero
          intro p _
          obtain ⟨⟨content, s⟩, hGet⟩ := Graph.exists_get? hLt
          cases content with
          | leaf =>
            rw [Graph.recordedTangent_of_leaf hGet, directionOf, if_neg hNot]
            rfl
          | literal a => exact Graph.recordedTangent_of_literal hGet p
          | op op operands =>
            rw [Graph.op?_of_get? hGet] at hOp
            exact absurd hOp (by simp)

end Reverse

end ArrayEquations
