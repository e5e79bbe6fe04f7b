import ArrayEquations.Proofs.ArrangedAxes
import ArrayEquations.Proofs.CheckedForward

/-!
# ArrayEquations — reverse differentiation with every access checked

On the way back a differentiation reads the extents of operands and results to find out over which
axes a contribution is summed, and writes the inverses of permutations entry by entry. The axes
come from parameters of operations, which were checked when the operations were recorded: here they
fit, since the graph that is differentiated is well-formed. Contributions have shapes of their own,
and no access relies on those.

## Main definitions

* `Checked.dependents` — the values that depend on the chosen arguments.
* `Checked.surplusAxes`, `Checked.stretchedAxes`, `Checked.inverse?` — the axes of contributions.
* `Checked.contributions`, `Checked.carryBack`, `Checked.recordReverse` — the cotangents.

## Main results

* `Checked.conforms_carryBack` — no access fails where a cotangent is carried on.
* `Checked.conforms_recordReverse` — none fails on the whole way back.
-/

namespace ArrayEquations

namespace Operation.Fits

variable {operands : List Shape} {out : Shape}

theorem isPermutation {permutation : List Nat} (h : Fits (.transpose permutation) operands out) :
    IsPermutation permutation := by
  cases h with
  | transpose hLength hLt hNodup => exact ⟨by rwa [hLength], hNodup⟩

theorem length_dims {dims : List Nat} {a : Shape} (h : Fits (.broadcast dims) [a] out) :
    dims.length = a.rank := by
  cases h with
  | broadcast hStretches => exact hStretches.length_eq

end Operation.Fits

namespace Checked

variable {r : Recorder}

/-! ## Dependents -/

/-- Whether a value is marked, where as many values can be as given. -/
def marked? (n : Nat) (marks : List ValueId) (v : ValueId) : Option Bool :=
  if v < n then some (marks.contains v) else none

/-- Marks a value or leaves it unmarked. -/
def mark? (n : Nat) (marks : List ValueId) (v : ValueId) (b : Bool) : Option (List ValueId) :=
  if v < n then some (if b then v :: marks else marks) else none

/-- Whether the operation of a value has a marked operand; an input or a constant has to be one of
the sources. -/
def depends? (g : Graph) (sources found : List ValueId) (v : ValueId) : Option Bool :=
  match g.op? v with
  | some (_, operands) => operands.anyM (marked? g.size found)
  | none => some (sources.contains v)

/-- The values that depend on any of the sources. -/
def dependents (g : Graph) (sources : List ValueId) : Option (List ValueId) :=
  g.ids.foldlM (fun found v => do
    let depends ← depends? g sources found v
    mark? g.size found v depends) []

theorem marked?_eq {n : Nat} {v : ValueId} (h : v < n) (marks : List ValueId) :
    marked? n marks v = some (marks.contains v) := if_pos h

theorem dependents_eq {g : Graph} (hRegular : g.Regular) (sources : List ValueId) :
    dependents g sources = some (ArrayEquations.dependents g sources) := by
  refine foldlM_eq_some fun v hv found => ?_
  have hLt : v < g.size := List.mem_range.mp hv
  have hDepends : depends? g sources found v = some (match g.op? v with
      | some (_, operands) => operands.any found.contains
      | none => sources.contains v) := by
    unfold depends?
    cases hOp : g.op? v with
    | none => rfl
    | some made =>
      have hGet := Graph.op?_eq_some hOp
      exact anyM_eq_some fun w hw =>
        marked?_eq (Nat.lt_trans (hRegular.before hGet w hw) hLt) found
  rw [hDepends]
  exact if_pos hLt

/-! ## Axes -/

/-- The axis of an array that is aligned with axis `k` of a target, if the target has extent one
there and the array has not. -/
def surplusAt? (shape target : Shape) (k : Nat) : Option (Option Nat) := do
  let axis ← minus? (shape.rank - target.rank + k) (target.rank - shape.rank)
  let extent ← item? target k
  if extent ≠ 1 then return none
  else do
    let own ← item? shape axis
    return if own ≠ 1 then some axis else none

/-- The axes over which an array of a shape is summed to fit a target. -/
def surplusAxes (shape target : Shape) : Option (List Nat) := do
  let offset := target.rank - shape.rank
  let aligned ← collect? (surplusAt? shape target) (List.range' offset (target.rank - offset))
  return List.range (shape.rank - target.rank) ++ aligned

/-- The axis of a result itself, if the operand has no such axis or is stretched along it. -/
def stretchedAt? (operand : Shape) (dims : List Nat) (target : Shape) (axis : Nat) :
    Option (Option Nat) :=
  match dims.idxOf? axis with
  | none => some (some axis)
  | some k => do
    let extent ← item? operand k
    if extent ≠ 1 then return none
    else do
      let stretched ← item? target axis
      return if stretched ≠ 1 then some axis else none

/-- The axes of a result over which its cotangent is summed to undo a broadcast. -/
def stretchedAxes (operand : Shape) (dims : List Nat) (target : Shape) : Option (List Nat) :=
  collect? (stretchedAt? operand dims target) target.axes

/-- The inverse of a permutation, written entry by entry. -/
def inverse? (permutation : List Nat) : Option (List Nat) :=
  fill? permutation.length 0 permutation.zipIdx

theorem surplusAt?_eq {shape target : Shape} {k : Nat} (hk : k < target.rank)
    (hOffset : target.rank - shape.rank ≤ k) :
    let axis := shape.rank - target.rank + k - (target.rank - shape.rank)
    surplusAt? shape target k =
      some (if target.extent k == 1 && shape.extent axis != 1 then some axis else none) := by
  intro axis
  have hAxis : axis < shape.rank := by omega
  unfold surplusAt?
  rw [minus?_of_le (by omega)]
  show (target[k]?).bind (fun extent => if extent ≠ 1 then some none
    else (shape[axis]?).bind fun own => some (if own ≠ 1 then some axis else none)) = _
  rw [getElem?_eq_extent hk, getElem?_eq_extent hAxis]
  by_cases hExtent : target.extent k = 1 <;> simp [hExtent]

theorem surplusAxes_eq (shape target : Shape) :
    surplusAxes shape target = some (Reverse.surplusAxes shape target) := by
  let lead := shape.rank - target.rank
  let offset := target.rank - shape.rank
  have hAligned : collect? (surplusAt? shape target) (List.range' offset (target.rank - offset)) =
      some (((List.range' offset (target.rank - offset)).filter fun k =>
        target.extent k == 1 && shape.extent (lead + k - offset) != 1).map
          fun k => lead + k - offset) := by
    refine collect?_eq fun k hk => ?_
    obtain ⟨hOffset, hLt⟩ := List.mem_range'_1.mp hk
    exact surplusAt?_eq (by omega) hOffset
  have hBack (k : Nat) : lead + (offset + k) - offset = lead + k := by omega
  unfold surplusAxes Reverse.surplusAxes
  show (collect? _ _).bind _ = _
  rw [hAligned, List.range'_eq_map_range, List.filter_map, List.map_map]
  simp only [Option.bind_some, Function.comp_def, hBack]
  rfl

theorem stretchedAt?_eq {operand target : Shape} {dims : List Nat}
    (h : dims.length = operand.rank) {axis : Nat} (hAxis : axis < target.rank) :
    stretchedAt? operand dims target axis = some (if (match dims.idxOf? axis with
      | none => true
      | some k => operand.extent k == 1 && target.extent axis != 1) then some axis else none) := by
  unfold stretchedAt?
  cases hIdx : dims.idxOf? axis with
  | none => rfl
  | some k =>
    have hk : k < operand.rank := by
      obtain ⟨hk, -⟩ := List.idxOf?_eq_some_iff.mp hIdx
      exact h ▸ hk
    show (operand[k]?).bind (fun extent => if extent ≠ 1 then some none
      else (target[axis]?).bind fun stretched =>
        some (if stretched ≠ 1 then some axis else none)) = _
    rw [getElem?_eq_extent hk, getElem?_eq_extent hAxis]
    by_cases hExtent : operand.extent k = 1 <;> simp [hExtent]

theorem stretchedAxes_eq {operand target : Shape} {dims : List Nat}
    (h : dims.length = operand.rank) :
    stretchedAxes operand dims target = some (Reverse.stretchedAxes operand dims target) := by
  have hKept : collect? (stretchedAt? operand dims target) target.axes =
      some ((Reverse.stretchedAxes operand dims target).map id) :=
    collect?_eq fun axis hAxis => stretchedAt?_eq h (List.mem_range.mp hAxis)
  rw [stretchedAxes, hKept, List.map_id]

theorem inverse?_eq {permutation : List Nat} (h : IsPermutation permutation) :
    inverse? permutation = some (Reverse.inversePermutation permutation) := by
  have hEntries : ∀ e ∈ permutation.zipIdx, e.1 < permutation.length := fun e he =>
    h.lt_length e.1 (List.fst_mem_of_mem_zipIdx he)
  rw [inverse?, fill?_eq 0 hEntries, Reverse.inversePermutation_eq h]
  congr 1
  apply List.map_congr_left
  intro axis hAxis
  have hLt := h.idxOf_lt (List.mem_range.mp hAxis)
  have hMem : (axis, permutation.idxOf axis) ∈ permutation.zipIdx.reverse := by
    rw [List.mem_reverse, List.mk_mem_zipIdx_iff_getElem?, List.getElem?_eq_getElem hLt,
      List.getElem_idxOf hLt]
  have hNodup : (permutation.zipIdx.reverse.map (·.1)).Nodup := by
    rw [List.map_reverse, List.nodup_reverse, List.zipIdx_map_fst]
    exact h.nodup
  rw [lookup_eq_some_of_nodup hNodup hMem]
  rfl

/-! ## Contributions -/

/-- The product of two values, where the seed counts as one. -/
def times (x : Reverse) (a b : ValueId) : CheckedRecording ValueId := do
  if ← x.isUnit a then return b
  else if ← x.isUnit b then return a
  else arith .mul a b

/-- The sum over axes; over none the value itself. -/
def sumOver (v : ValueId) (axes : List Nat) : CheckedRecording ValueId :=
  if axes.isEmpty then pure v else sum v axes

/-- A contribution brought to its operand's shape. -/
def unbroadcast (contribution : ValueId) (target : Shape) : CheckedRecording ValueId := do
  let shape ← Recording.shapeOf contribution
  if shape = target then return contribution
  let axes ← surplusAxes shape target
  let summed ← sumOver contribution axes
  let shape ← Recording.shapeOf summed
  if shape = target then return summed
  else if shape.size = target.size then Recording.reshape summed target
  else broadcastTo summed target

/-- The value with its axes put in order. -/
def arrange (v : ValueId) (order : List Nat) : CheckedRecording ValueId :=
  if order = List.range order.length then pure v
  else do
    let inverse ← inverse? order
    transpose v inverse

/-- The contribution of a named function's result `out` at `a`. -/
def callContribution (x : Reverse) (f : NamedFunction) (a out ct : ValueId) :
    CheckedRecording ValueId :=
  match f with
  | .relu => do
    let slope ← positive a
    times x slope ct
  | .exp => times x ct out
  | .log => arith .div ct a
  | .sin => do
    let slope ← call .cos a
    times x ct slope
  | .cos => do
    let slope ← call .sin a
    let product ← times x ct slope
    neg product
  | .tanh => do
    let square ← arithRight .pow out 2
    let slope ← arithLeft .sub 1 square
    times x ct slope
  | .sqrt => do
    let double ← arithLeft .mul 2 out
    arith .div ct double

/-- The contribution of `a op b = out` to `a`. -/
def lhsContribution (x : Reverse) (op : Arith) (a b ct : ValueId) : CheckedRecording ValueId :=
  match op with
  | .add | .sub => pure ct
  | .mul => times x ct b
  | .div => arith .div ct b
  | .pow => do
    let slope ← powerSlope a b
    times x ct slope

/-- The contribution of `a op b = out` to `b`. -/
def rhsContribution (x : Reverse) (op : Arith) (a b out ct : ValueId) :
    CheckedRecording ValueId :=
  match op with
  | .add => pure ct
  | .sub => neg ct
  | .mul => times x a ct
  | .div => do
    let product ← times x ct a
    let square ← arithRight .pow b 2
    let quotient ← arith .div product square
    neg quotient
  | .pow => do
    let log ← call .log a
    let slope ← arith .mul out log
    times x ct slope

/-- The contribution of a broadcast. -/
def broadcastContribution (operand : Shape) (dims : List Nat) (target : Shape) (ct : ValueId) :
    CheckedRecording ValueId := do
  let axes ← stretchedAxes operand dims target
  let summed ← sumOver ct axes
  if (← Recording.shapeOf summed) = operand then return summed
  else Recording.reshape summed operand

/-- The contribution of a contraction to its left operand. -/
def contractLhs (axes : ContractionAxes) (lhsRank rhsRank : Nat) (b ct : ValueId) :
    CheckedRecording ValueId := do
  let batch := axes.lhsBatch.length
  let lhsFree := axes.lhsFree lhsRank
  let rhsFree := axes.rhsFree rhsRank
  let product ← contract
    { lhsContract := (List.range rhsFree.length).map (batch + lhsFree.length + ·)
      rhsContract := rhsFree
      lhsBatch := List.range batch
      rhsBatch := axes.rhsBatch } ct b
  arrange product
    (axes.lhsBatch ++ lhsFree ++ Reverse.partnersInOrder axes.rhsContract axes.lhsContract)

/-- The contribution of a contraction to its right operand. -/
def contractRhs (axes : ContractionAxes) (lhsRank rhsRank : Nat) (a ct : ValueId) :
    CheckedRecording ValueId := do
  let batch := axes.lhsBatch.length
  let lhsFree := axes.lhsFree lhsRank
  let rhsFree := axes.rhsFree rhsRank
  let product ← contract
    { lhsContract := lhsFree
      rhsContract := (List.range lhsFree.length).map (batch + ·)
      lhsBatch := axes.lhsBatch
      rhsBatch := List.range batch } a ct
  arrange product
    (axes.rhsBatch ++ Reverse.partnersInOrder axes.lhsContract axes.rhsContract ++ rhsFree)

/-- The contribution to the operand at a place, brought to the operand's shape; none if the operand
does not depend on a chosen argument. -/
def emit (x : Reverse) (operands : List ValueId) (k : Nat)
    (contribution : CheckedRecording ValueId) : CheckedRecording (List (ValueId × ValueId)) := do
  let operand ← item? operands k
  let depends ← marked? x.graph.size x.depends operand
  if depends then
    let c ← contribution
    let target ← shape? x.graph operand
    let c ← unbroadcast c target
    return [(operand, c)]
  else return []

/-- What the operation of `out`, with the cotangent `ct`, gives its operands. -/
def contributions (x : Reverse) (op : Operation) (operands : List ValueId) (out ct : ValueId) :
    CheckedDifferentiating (List (ValueId × ValueId)) := do
  match op with
  | .arith op => do
    let a ← item? operands 0
    let b ← item? operands 1
    let l ← emit x operands 0 (lhsContribution x op a b ct)
    let r ← emit x operands 1 (rhsContribution x op a b out ct)
    return l ++ r
  | .accumulate => do
    let l ← emit x operands 0 (pure ct)
    let r ← emit x operands 1 (pure ct)
    return l ++ r
  | .neg => emit x operands 0 (neg ct)
  | .call f => do
    let a ← item? operands 0
    emit x operands 0 (callContribution x f a out ct)
  | .indicator _ => return []
  | .cast _ => emit x operands 0 (pure ct)
  | .reshape => do
    let a ← item? operands 0
    let sa ← shape? x.graph a
    emit x operands 0 (Recording.reshape ct sa)
  | .transpose permutation => emit x operands 0 do
    let inverse ← inverse? permutation
    transpose ct inverse
  | .broadcast dims => do
    let a ← item? operands 0
    let sa ← shape? x.graph a
    let target ← shape? x.graph out
    emit x operands 0 (broadcastContribution sa dims target ct)
  | .reduceSum axes => do
    let a ← item? operands 0
    let sa ← shape? x.graph a
    let kept := sa.axes.filter fun axis => !axes.contains axis
    emit x operands 0 (Recording.pushShaped (.broadcast kept) [ct] sa)
  | .contract axes => do
    let a ← item? operands 0
    let b ← item? operands 1
    let sa ← shape? x.graph a
    let sb ← shape? x.graph b
    let l ← emit x operands 0 (contractLhs axes sa.rank sb.rank b ct)
    let r ← emit x operands 1 (contractRhs axes sa.rank sb.rank a ct)
    return l ++ r
  | .foreign name => throw (.noRule name)

/-! ## The way back -/

/-- Adds a contribution to the cotangent of a value. -/
def accumulate (n : Nat) (cotangents : Derivatives) (target contribution : ValueId) :
    CheckedRecording Derivatives := do
  match ← slot? n cotangents target with
  | none => store? n cotangents target contribution
  | some before =>
    let sum ← elementwise .accumulate before contribution
    store? n cotangents target sum

/-- Adds contributions to the cotangents of their targets, one after the other. -/
def accumulateAll (n : Nat) (cotangents : Derivatives) (given : List (ValueId × ValueId)) :
    CheckedRecording Derivatives :=
  given.foldlM (fun cotangents (target, c) => accumulate n cotangents target c) cotangents

/-- Adds the seed of an output: the unit of a gradient, or an input of its own. -/
def seedOutput (x : Reverse) (cotangents : Derivatives) (o : ValueId) :
    CheckedRecording Derivatives := do
  let seed ←
    match x.unit with
    | some unit => do
      Recording.tag .cotangent o unit
      pure unit
    | none => Recording.derivativeInput .cotangent o
  let depends ← marked? x.graph.size x.depends o
  if depends then accumulate x.graph.size cotangents o seed else return cotangents

/-- Adds the seeds of the outputs in order. -/
def seedOutputs (x : Reverse) (outputs : List ValueId) : CheckedRecording Derivatives :=
  outputs.foldlM (seedOutput x) Derivatives.none

/-- Carries the cotangent of a value on to the operands of its operation. -/
def carryBack (x : Reverse) (bound : List ValueId) (cotangents : Derivatives) (v : ValueId) :
    CheckedDifferentiating Derivatives := do
  match ← slot? x.graph.size cotangents v, x.graph.op? v with
  | some ct, some (op, operands) =>
    if bound.contains v then Recording.tag .cotangent v ct
    let given ← contributions x op operands v ct
    accumulateAll x.graph.size cotangents given
  | _, _ => return cotangents

/-- Records the cotangents of the arguments given. -/
def recordReverse (g : Graph) (bound arguments outputs : List ValueId) (gradient : Bool) :
    CheckedDifferentiating (List ValueId) := do
  let unit ← if gradient then some <$> Recording.literal 1 else pure none
  let depends ← dependents g arguments
  let x : Reverse := ⟨g, unit, depends⟩
  let seeds ← seedOutputs x outputs
  let cotangents ← g.ids.reverse.foldlM (carryBack x bound) seeds
  quantities .cotangent g.size cotangents arguments

/-! ## No access fails -/

section Contributions

variable {x : Reverse} {a b out ct : ValueId}

/-- Whether a value is the seed is read off the graph, as far as it goes. -/
theorem agrees_isUnit (x : Reverse) (a : ValueId) :
    Agrees (liftM (x.isUnit a)) (x.isUnit a) r fun _ _ => True :=
  agrees_of_same rfl trivial

theorem agrees_times (x : Reverse) (ha : a < r.graph.size) (hb : b < r.graph.size) :
    Agrees (times x a b) (x.times a b) r (· < ·) := by
  refine (agrees_isUnit x a).bind fun aIsUnit r₁ hSize₁ _ => ?_
  have ha₁ := Nat.lt_of_lt_of_le ha hSize₁
  have hb₁ := Nat.lt_of_lt_of_le hb hSize₁
  cases aIsUnit with
  | true => exact agrees_pure hb₁
  | false =>
    refine (agrees_isUnit x b).bind fun bIsUnit r₂ hSize₂ _ => ?_
    cases bIsUnit with
    | true => exact agrees_pure (Nat.lt_of_lt_of_le ha₁ hSize₂)
    | false =>
      exact agrees_arith .mul (Nat.lt_of_lt_of_le ha₁ hSize₂) (Nat.lt_of_lt_of_le hb₁ hSize₂)

theorem agrees_sumOver (ha : a < r.graph.size) (axes : List Nat) :
    Agrees (sumOver a axes) (Reverse.sumOver a axes) r (· < ·) := by
  unfold sumOver Reverse.sumOver
  split
  · exact agrees_pure ha
  · exact agrees_sum ha axes

/-- A contribution of any shape is brought to the shape of the operand, or fails to be. -/
theorem agrees_unbroadcast (ha : a < r.graph.size) (target : Shape) :
    Agrees (unbroadcast a target) (Reverse.unbroadcast a target) r (· < ·) := by
  unfold unbroadcast Reverse.unbroadcast
  apply agrees_shapeOf_bind
  split
  · exact agrees_pure ha
  · refine agrees_access (surplusAxes_eq _ target) ?_
    refine (agrees_sumOver ha _).bind fun summed r₁ _ hSummed => ?_
    -- The shape is read once more, for the sum may have failed and left a placeholder.
    apply agrees_shapeOf_bind
    split
    · exact agrees_pure hSummed
    · split
      · exact agrees_reshape hSummed target
      · exact agrees_broadcastTo hSummed target

theorem agrees_arrange {order : List Nat} (hOrder : IsPermutation order) (ha : a < r.graph.size) :
    Agrees (arrange a order) (Reverse.arrange a order) r (· < ·) := by
  unfold arrange Reverse.arrange
  split
  · exact agrees_pure ha
  · exact agrees_access (inverse?_eq hOrder) (agrees_transpose ha _)

theorem agrees_callContribution (x : Reverse) (f : NamedFunction) (ha : a < r.graph.size)
    (ho : out < r.graph.size) (hct : ct < r.graph.size) :
    Agrees (callContribution x f a out ct) (x.callContribution f a out ct) r (· < ·) := by
  -- As for tangents, with the factors the other way round.
  cases f with
  | relu =>
    refine (agrees_positive ha).bind fun slope _ hSize hSlope => ?_
    exact agrees_times x hSlope (Nat.lt_of_lt_of_le hct hSize)
  | exp => exact agrees_times x hct ho
  | log => exact agrees_arith .div hct ha
  | sin =>
    refine (agrees_call .cos ha).bind fun slope _ hSize hSlope => ?_
    exact agrees_times x (Nat.lt_of_lt_of_le hct hSize) hSlope
  | cos =>
    refine (agrees_call .sin ha).bind fun slope _ hSize hSlope => ?_
    refine (agrees_times x (Nat.lt_of_lt_of_le hct hSize) hSlope).bind fun product _ _ h => ?_
    exact agrees_neg h
  | tanh =>
    refine (agrees_arithRight .pow ho 2).bind fun square _ hSize hSquare => ?_
    refine (agrees_arithLeft .sub 1 hSquare).bind fun slope _ hSize' hSlope => ?_
    exact agrees_times x (Nat.lt_of_lt_of_le hct (Nat.le_trans hSize hSize')) hSlope
  | sqrt =>
    refine (agrees_arithLeft .mul 2 ho).bind fun double _ hSize hDouble => ?_
    exact agrees_arith .div (Nat.lt_of_lt_of_le hct hSize) hDouble

theorem agrees_lhsContribution (x : Reverse) (op : Arith) (ha : a < r.graph.size)
    (hb : b < r.graph.size) (hct : ct < r.graph.size) :
    Agrees (lhsContribution x op a b ct) (x.lhsContribution op a b ct) r (· < ·) := by
  cases op with
  | add | sub => exact agrees_pure hct
  | mul => exact agrees_times x hct hb
  | div => exact agrees_arith .div hct hb
  | pow =>
    refine (agrees_powerSlope ha hb).bind fun slope _ hSize hSlope => ?_
    exact agrees_times x (Nat.lt_of_lt_of_le hct hSize) hSlope

theorem agrees_rhsContribution (x : Reverse) (op : Arith) (ha : a < r.graph.size)
    (hb : b < r.graph.size) (ho : out < r.graph.size) (hct : ct < r.graph.size) :
    Agrees (rhsContribution x op a b out ct) (x.rhsContribution op a b out ct) r (· < ·) := by
  cases op with
  | add => exact agrees_pure hct
  | sub => exact agrees_neg hct
  | mul => exact agrees_times x ha hct
  | div =>
    refine (agrees_times x hct ha).bind fun product _ hSize hProduct => ?_
    refine (agrees_arithRight .pow (Nat.lt_of_lt_of_le hb hSize) 2).bind
      fun square _ hSize' hSquare => ?_
    refine (agrees_arith .div (Nat.lt_of_lt_of_le hProduct hSize') hSquare).bind
      fun quotient _ _ hQuotient => ?_
    exact agrees_neg hQuotient
  | pow =>
    refine (agrees_call .log ha).bind fun log _ hSize hLog => ?_
    refine (agrees_arith .mul (Nat.lt_of_lt_of_le ho hSize) hLog).bind
      fun slope _ hSize' hSlope => ?_
    exact agrees_times x (Nat.lt_of_lt_of_le hct (Nat.le_trans hSize hSize')) hSlope

theorem agrees_broadcastContribution {operand target : Shape} {dims : List Nat}
    (hDims : dims.length = operand.rank) (hct : ct < r.graph.size) :
    Agrees (broadcastContribution operand dims target ct)
      (Reverse.broadcastContribution operand dims target ct) r (· < ·) := by
  unfold broadcastContribution Reverse.broadcastContribution
  refine agrees_access (stretchedAxes_eq hDims) ?_
  refine (agrees_sumOver hct _).bind fun summed r₁ _ hSummed => ?_
  apply agrees_shapeOf_bind
  split
  · exact agrees_pure hSummed
  · exact agrees_reshape hSummed operand

section Contract

variable {axes : ContractionAxes} {sa sb : Shape} (h : axes.Pairable sa sb)

include h

theorem agrees_contractLhs (hb : b < r.graph.size) (hct : ct < r.graph.size) :
    Agrees (contractLhs axes sa.rank sb.rank b ct)
      (Reverse.contractLhs axes sa.rank sb.rank b ct) r (· < ·) :=
  (agrees_contract _ hct hb).bind fun _ _ _ hProduct =>
    agrees_arrange (Reverse.isPermutation_lhsOrder h).1 hProduct

theorem agrees_contractRhs (ha : a < r.graph.size) (hct : ct < r.graph.size) :
    Agrees (contractRhs axes sa.rank sb.rank a ct)
      (Reverse.contractRhs axes sa.rank sb.rank a ct) r (· < ·) :=
  (agrees_contract _ ha hct).bind fun _ _ _ hProduct =>
    agrees_arrange (Reverse.isPermutation_rhsOrder h).1 hProduct

end Contract

/-- Contributions to values of the graph that is differentiated. -/
def Given (x : Reverse) (given : List (ValueId × ValueId)) (n : Nat) : Prop :=
  ∀ c ∈ given, c.1 < x.graph.size ∧ c.2 < n

theorem given_nil (x : Reverse) (n : Nat) : Given x [] n := fun _ h => absurd h (by simp)

theorem Given.append {l l' : List (ValueId × ValueId)} {n n' : Nat} (h : Given x l n)
    (hn : n ≤ n') (h' : Given x l' n') : Given x (l ++ l') n' := by
  intro c hc
  rcases List.mem_append.mp hc with hc | hc
  · exact ⟨(h c hc).1, Nat.lt_of_lt_of_le (h c hc).2 hn⟩
  · exact h' c hc

theorem agrees_emit {operands : List ValueId} {k : Nat} (hItem : operands[k]? = some a)
    (ha : a < x.graph.size) {c : CheckedRecording ValueId} {m : Recording ValueId}
    (h : Agrees c m r (· < ·)) : Agrees (emit x operands k c) (x.emit a m) r (Given x) := by
  unfold emit Reverse.emit
  refine agrees_access hItem (agrees_access (marked?_eq ha x.depends) ?_)
  -- Nothing is recorded for an operand that no argument leads to.
  split
  · refine h.bind fun v r₁ _ hv => ?_
    refine agrees_access (shape?_eq ha) ((agrees_unbroadcast hv _).bind fun v' r₂ _ hv' => ?_)
    apply agrees_pure
    rintro c hc
    obtain rfl := List.mem_singleton.mp hc
    exact ⟨ha, hv'⟩
  · exact agrees_pure (given_nil x _)

/-- Two contributions, of which the second one finds what the first one has recorded. -/
theorem conforms_emit_both {operands : List ValueId} (hFirst : operands[0]? = some a)
    (ha : a < x.graph.size) (hSecond : operands[1]? = some b) (hb : b < x.graph.size)
    {c c' : CheckedRecording ValueId} {m m' : Recording ValueId} (h : Agrees c m r (· < ·))
    (h' : ∀ r', r.graph.size ≤ r'.graph.size → Agrees c' m' r' (· < ·)) :
    Conforms (do
      let l ← liftM (emit x operands 0 c)
      let r ← liftM (emit x operands 1 c')
      return l ++ r) (do
      let l ← liftM (x.emit a m)
      let r ← liftM (x.emit b m')
      return l ++ r) r (Given x) :=
  (conforms_lift (agrees_emit hFirst ha h)).bind fun _ r₁ hSize₁ hl =>
    (conforms_lift (agrees_emit hSecond hb (h' r₁ hSize₁))).bind fun _ _ hSize₂ hr =>
      conforms_pure (hl.append hSize₂ hr)

/-- The parameters of the operation fit its operands, so the axes are theirs. -/
theorem conforms_contributions (hGraph : x.graph.WellFormed) {op : Operation}
    {operands : List ValueId} {s : Shape} (hGet : x.graph.get? out = some ⟨.op op operands, s⟩)
    (hSize : x.graph.size ≤ r.graph.size) (hct : ct < r.graph.size) :
    Conforms (contributions x op operands out ct) (x.contributions op operands out ct) r
      (Given x) := by
  have hOut : out < x.graph.size := Graph.lt_size_of_get? hGet
  have hLt : ∀ w ∈ operands, w < x.graph.size := fun w hw =>
    Nat.lt_trans (hGraph.before hGet w hw) hOut
  have hReads := hGraph.regular.reads hGet
  have hFits := hGraph.fits hGet
  -- The values of the graph, and the cotangent, are still there when more is recorded.
  have hLater {v : ValueId} (hv : v < x.graph.size) {r' : Recorder}
      (hSize' : r.graph.size ≤ r'.graph.size) : v < r'.graph.size :=
    Nat.lt_of_lt_of_le hv (Nat.le_trans hSize hSize')
  have hctLater {r' : Recorder} (hSize' : r.graph.size ≤ r'.graph.size) : ct < r'.graph.size :=
    Nat.lt_of_lt_of_le hct hSize'
  unfold contributions Reverse.contributions
  cases op with
  | arith op =>
    obtain ⟨a, b, rfl, ha, hb⟩ := hReads.two rfl hLt
    refine conforms_access rfl (conforms_access rfl (conforms_emit_both rfl ha rfl hb ?_ ?_))
    · exact agrees_lhsContribution x op (hLater ha le_rfl) (hLater hb le_rfl) hct
    · intro r' hSize'
      exact agrees_rhsContribution x op (hLater ha hSize') (hLater hb hSize') (hLater hOut hSize')
        (hctLater hSize')
  | accumulate =>
    obtain ⟨a, b, rfl, ha, hb⟩ := hReads.two rfl hLt
    -- Both operands get the cotangent itself, so only its stretching is undone.
    refine conforms_emit_both rfl ha rfl hb (agrees_pure hct) fun r' hSize' => ?_
    exact agrees_pure (hctLater hSize')
  | neg =>
    obtain ⟨a, rfl, ha⟩ := hReads.one rfl hLt
    exact conforms_lift (agrees_emit rfl ha (agrees_neg hct))
  | call f =>
    obtain ⟨a, rfl, ha⟩ := hReads.one rfl hLt
    refine conforms_access rfl (conforms_lift (agrees_emit rfl ha ?_))
    exact agrees_callContribution x f (hLater ha le_rfl) (hLater hOut le_rfl) hct
  | indicator => exact conforms_pure (given_nil x _)
  | cast =>
    obtain ⟨a, rfl, ha⟩ := hReads.one rfl hLt
    exact conforms_lift (agrees_emit rfl ha (agrees_pure hct))
  | reshape =>
    obtain ⟨a, rfl, ha⟩ := hReads.one rfl hLt
    refine conforms_access rfl (conforms_access (shape?_eq ha) ?_)
    exact conforms_lift (agrees_emit rfl ha (agrees_reshape hct _))
  | transpose permutation =>
    obtain ⟨a, rfl, ha⟩ := hReads.one rfl hLt
    refine conforms_lift (agrees_emit rfl ha ?_)
    -- The inverse is written at the axes of the permutation, which are axes of the operand.
    exact agrees_access (inverse?_eq hFits.isPermutation) (agrees_transpose hct _)
  | broadcast dims =>
    obtain ⟨a, rfl, ha⟩ := hReads.one rfl hLt
    refine conforms_access rfl (conforms_access (shape?_eq ha) ?_)
    refine conforms_access (shape?_eq hOut) (conforms_lift (agrees_emit rfl ha ?_))
    exact agrees_broadcastContribution hFits.length_dims hct
  | reduceSum axes =>
    obtain ⟨a, rfl, ha⟩ := hReads.one rfl hLt
    refine conforms_access rfl (conforms_access (shape?_eq ha) ?_)
    exact conforms_lift (agrees_emit rfl ha (agrees_pushShaped_one rfl hct _))
  | contract axes =>
    obtain ⟨a, b, rfl, ha, hb⟩ := hReads.two rfl hLt
    have hPairable := hReads.pairable axes _ _ rfl rfl
    refine conforms_access rfl (conforms_access rfl ?_)
    refine conforms_access (shape?_eq ha) (conforms_access (shape?_eq hb) ?_)
    refine conforms_emit_both rfl ha rfl hb ?_ fun r' hSize' => ?_
    · exact agrees_contractLhs hPairable (hLater hb le_rfl) hct
    · exact agrees_contractRhs hPairable (hLater ha hSize') (hctLater hSize')
  | «foreign» => exact conforms_throw _

end Contributions

section WayBack

variable {x : Reverse} {cotangents : Derivatives}

theorem agrees_accumulate {n : Nat} {target contribution : ValueId} (hTarget : target < n)
    (h : cotangents.Within r.graph.size) (hc : contribution < r.graph.size) :
    Agrees (accumulate n cotangents target contribution)
      (Reverse.accumulate cotangents target contribution) r Derivatives.Within := by
  unfold accumulate Reverse.accumulate
  refine agrees_access (slot?_eq cotangents hTarget) ?_
  -- The first contribution is stored, and a later one is added to those before.
  cases hBefore : cotangents target with
  | none => exact agrees_accessed (store?_eq cotangents hTarget _) (h.set hc)
  | some before =>
    refine (agrees_elementwise rfl (by simp) (h target before hBefore) hc).bind
      fun sum r₁ hSize hSum => ?_
    exact agrees_accessed (store?_eq cotangents hTarget sum) ((h.mono hSize).set hSum)

theorem agrees_accumulateAll {given : List (ValueId × ValueId)}
    (hGiven : Given x given r.graph.size) (h : cotangents.Within r.graph.size) :
    Agrees (accumulateAll x.graph.size cotangents given)
      (Reverse.accumulateAll cotangents given) r Derivatives.Within :=
  agrees_foldlM h fun c hc _ _ hSize hBefore =>
    agrees_accumulate (hGiven c hc).1 hBefore (Nat.lt_of_lt_of_le (hGiven c hc).2 hSize)

theorem agrees_seedOutput (hUnit : Known x.unit r.graph.size) {o : ValueId}
    (ho : o < x.graph.size) (h : cotangents.Within r.graph.size) :
    Agrees (seedOutput x cotangents o) (x.seedOutput cotangents o) r Derivatives.Within := by
  unfold seedOutput Reverse.seedOutput
  -- The seed is a value, whether it is the unit or an input of its own.
  have hRest {seed : ValueId} {r' : Recorder} (hSize : r.graph.size ≤ r'.graph.size)
      (hSeed : seed < r'.graph.size) : Agrees (do
        let depends ← marked? x.graph.size x.depends o
        if depends then accumulate x.graph.size cotangents o seed else return cotangents)
      (if x.depends.contains o then Reverse.accumulate cotangents o seed
        else return cotangents) r' Derivatives.Within := by
    refine agrees_access (marked?_eq ho x.depends) ?_
    split
    · exact agrees_accumulate ho (h.mono hSize) hSeed
    · exact agrees_pure (h.mono hSize)
  cases hSeed : x.unit with
  | some unit =>
    refine (agrees_tag .cotangent o unit).bind fun _ r₁ hSize _ => ?_
    exact hRest hSize (Nat.lt_of_lt_of_le (hUnit unit hSeed) hSize)
  | none => exact (agrees_derivativeInput .cotangent o).bind fun seed _ hSize hs => hRest hSize hs

theorem agrees_seedOutputs (hUnit : Known x.unit r.graph.size) {outputs : List ValueId}
    (hOutputs : ∀ o ∈ outputs, o < x.graph.size) :
    Agrees (seedOutputs x outputs) (x.seedOutputs outputs) r Derivatives.Within :=
  agrees_foldlM (Derivatives.within_none _) fun o ho _ _ hSize h =>
    agrees_seedOutput (hUnit.mono hSize) (hOutputs o ho) h

/-- **No access fails where the cotangent of a value is carried on**, whatever the cotangents found
before are. -/
theorem conforms_carryBack (hGraph : x.graph.WellFormed) (bound : List ValueId) {v : ValueId}
    (hv : v < x.graph.size) (hSize : x.graph.size ≤ r.graph.size)
    (h : cotangents.Within r.graph.size) :
    Conforms (carryBack x bound cotangents v) (x.carryBack bound cotangents v) r
      Derivatives.Within := by
  unfold carryBack Reverse.carryBack
  refine conforms_access (slot?_eq cotangents hv) ?_
  cases hct : cotangents v with
  | none => exact conforms_pure h
  | some ct =>
    cases hOp : x.graph.op? v with
    | none => exact conforms_pure h
    | some made =>
      obtain ⟨op, operands⟩ := made
      have hGet := Graph.op?_eq_some hOp
      -- What follows is the same whether the cotangent is tagged or not.
      have hRest {r' : Recorder} (hSize' : r.graph.size ≤ r'.graph.size) : Conforms (do
          let given ← contributions x op operands v ct
          accumulateAll x.graph.size cotangents given) (do
          let given ← x.contributions op operands v ct
          Reverse.accumulateAll cotangents given) r' Derivatives.Within := by
        have hct' : ct < r'.graph.size := Nat.lt_of_lt_of_le (h v ct hct) hSize'
        refine (conforms_contributions hGraph hGet (Nat.le_trans hSize hSize') hct').bind
          fun given r₁ hSize₁ hGiven => ?_
        exact conforms_lift (agrees_accumulateAll hGiven (h.mono (Nat.le_trans hSize' hSize₁)))
      simp only
      split
      · exact (conforms_lift (agrees_tag .cotangent v ct)).bind fun _ _ hSize' _ => hRest hSize'
      · exact hRest le_rfl

/-- **No access fails on the whole way back** through a well-formed graph. -/
theorem conforms_recordReverse {g : Graph} (hGraph : g.WellFormed) (bound : List ValueId)
    {arguments outputs : List ValueId} (hArguments : ∀ a ∈ arguments, a < g.size)
    (hOutputs : ∀ o ∈ outputs, o < g.size) (gradient : Bool) (hSize : g.size ≤ r.graph.size) :
    Conforms (recordReverse g bound arguments outputs gradient)
      (ArrayEquations.recordReverse g bound arguments outputs gradient) r fun _ _ => True := by
  -- What follows is the same with the unit of a gradient and without one.
  have hRest (unit : Option ValueId) {r₁ : Recorder} (hSize₁ : r.graph.size ≤ r₁.graph.size)
      (hUnit : Known unit r₁.graph.size) : Conforms (do
        let depends ← liftM (dependents g arguments)
        let x : Reverse := ⟨g, unit, depends⟩
        let seeds ← liftM (seedOutputs x outputs)
        let cotangents ← g.ids.reverse.foldlM (carryBack x bound) seeds
        liftM (quantities .cotangent g.size cotangents arguments)) (do
        let x : Reverse := ⟨g, unit, ArrayEquations.dependents g arguments⟩
        let seeds ← liftM (x.seedOutputs outputs)
        let cotangents ← g.ids.reverse.foldlM (x.carryBack bound) seeds
        liftM (Reverse.argumentCotangents cotangents arguments)) r₁ fun _ _ => True := by
    refine conforms_access (dependents_eq hGraph.regular arguments) ?_
    let x : Reverse := ⟨g, unit, ArrayEquations.dependents g arguments⟩
    have hSeeds : Agrees (seedOutputs x outputs) (x.seedOutputs outputs) r₁ Derivatives.Within :=
      agrees_seedOutputs hUnit hOutputs
    refine (conforms_lift hSeeds).bind fun seeds r₂ hSize₂ hWithin => ?_
    refine Conforms.bind (conforms_foldlM hWithin fun v hv cotangents r₃ hSize₃ h => ?_)
      fun cotangents r₃ _ _ => ?_
    · have hLt : v < x.graph.size := List.mem_range.mp (List.mem_reverse.mp hv)
      have hLater := Nat.le_trans hSize₁ (Nat.le_trans hSize₂ hSize₃)
      exact conforms_carryBack hGraph bound hLt (Nat.le_trans hSize hLater) h
    · exact conforms_lift (agrees_mapM fun a ha _ _ =>
        agrees_quantityOf cotangents (hArguments a ha))
  -- A gradient starts from a unit that is recorded first.
  cases gradient with
  | false => exact hRest none le_rfl (known_none _)
  | true =>
    refine Conforms.bind (P := Known) ?_ fun unit _ hSize₁ hUnit => hRest unit hSize₁ hUnit
    rw [map_eq_pure_bind, map_eq_pure_bind]
    exact (conforms_lift (agrees_literal 1)).bind fun _ _ _ hv => conforms_pure (known_some hv)

end WayBack

end Checked

end ArrayEquations
