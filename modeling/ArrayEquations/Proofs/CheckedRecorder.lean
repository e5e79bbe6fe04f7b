import ArrayEquations.Proofs.CheckedShapes
import ArrayEquations.Proofs.RecordedTrace

/-!
# ArrayEquations — recording with every access checked

A call of a recording reads the shapes of the values it is made on, and the operands that it is
given. In this module every such access is checked: a call has no result if one fails. None does if
the call is made on values of the recording, also when the recording has failed before and goes on
with placeholders.

Formulas read the graphs that recordings make. So every call also keeps what they rely on: an
operation has as many operands as it is read with, and these come before it; a contraction pairs
axes that its operands have.

## Main definitions

* `Graph.Regular` — what the reading of a graph relies on.
* `CheckedRecording` — a recording that has no result if an access fails.
* `Checked.Agrees` — the checked action does what the action does, and keeps graphs regular.
* `Checked.push`, `Checked.elementwise`, … — the operations on values; `Checked.record`, the calls.

## Main results

* `Checked.agrees_record` — no access of a call fails.
* `Checked.recordAll_eq` — none fails in a whole recording.
-/

namespace ArrayEquations

/-! ## Regular graphs -/

/-- The number of operands that an operation is read with; a foreign one is not read. -/
def Operation.arity? : Operation → Option Nat
  | .arith _ | .indicator _ | .accumulate | .contract _ => some 2
  | .neg | .call _ | .reduceSum _ | .broadcast _ | .transpose _ | .reshape | .cast _ => some 1
  | .foreign _ => none

/-- The operation has the operands that it is read with, and a contraction pairs their axes. -/
structure Operation.Reads (op : Operation) (operands : List Shape) : Prop where
  length_eq : ∀ n ∈ op.arity?, operands.length = n
  pairable : ∀ axes a b, op = .contract axes → operands = [a, b] → axes.Pairable a b

theorem Operation.Fits.reads {op : Operation} {operands : List Shape} {out : Shape}
    (h : op.Fits operands out) : op.Reads operands := by
  constructor
  · intro n hn
    cases h <;> first | exact Option.some.inj hn | exact absurd hn (by simp [arity?])
  · rintro axes a b rfl rfl
    cases h with
    | contract hPairable => exact hPairable

section Reads

variable {op : Operation} {operands : List ValueId} {shape : ValueId → Shape} {n : Nat}

theorem Operation.Reads.one (h : op.Reads (operands.map shape)) (hArity : op.arity? = some 1)
    (hLt : ∀ w ∈ operands, w < n) : ∃ a, operands = [a] ∧ a < n := by
  obtain ⟨a, rfl⟩ := List.length_eq_one_iff.mp (by simpa using h.length_eq 1 hArity)
  exact ⟨a, rfl, hLt a (by simp)⟩

theorem Operation.Reads.two (h : op.Reads (operands.map shape)) (hArity : op.arity? = some 2)
    (hLt : ∀ w ∈ operands, w < n) : ∃ a b, operands = [a, b] ∧ a < n ∧ b < n := by
  obtain ⟨a, b, rfl⟩ := List.length_eq_two.mp (by simpa using h.length_eq 2 hArity)
  exact ⟨a, b, rfl, hLt a (by simp), hLt b (by simp)⟩

end Reads

/-- Operations come after the operands that they are read with. -/
structure Graph.Regular (g : Graph) : Prop where
  before : ∀ {v op operands s}, g.get? v = some ⟨.op op operands, s⟩ → ∀ w ∈ operands, w < v
  reads : ∀ {v op operands s}, g.get? v = some ⟨.op op operands, s⟩ →
    op.Reads (operands.map g.shape)

namespace Graph

variable {g : Graph}

theorem WellFormed.regular (h : g.WellFormed) : g.Regular :=
  ⟨h.before, fun hGet => (h.fits hGet).reads⟩

/-- One more value, an operation on values of the graph or none. -/
theorem Regular.push (h : g.Regular) {new : Value} (hNew : ∀ op operands,
    new.op? = some (op, operands) → (∀ w ∈ operands, w < g.size) ∧
      op.Reads (operands.map g.shape)) : (g.push new).Regular := by
  constructor
  · intro v op operands s hGet
    rcases get?_push hGet with hOld | ⟨rfl, rfl⟩
    · exact h.before hOld
    · exact (hNew op operands rfl).1
  · intro v op operands s hGet
    rcases get?_push hGet with hOld | ⟨rfl, rfl⟩
    · rw [map_shape_push new fun w hw =>
        Nat.lt_trans (h.before hOld w hw) (lt_size_of_get? hOld)]
      exact h.reads hOld
    · obtain ⟨hBefore, hReads⟩ := hNew op operands rfl
      rwa [map_shape_push _ hBefore]

theorem Regular.ordered (h : g.Regular) : g.Ordered := ordered_of_before h.before

end Graph

/-! ## Checked actions -/

/-- A recording that has no result if an access fails. -/
abbrev CheckedRecording := StateT Recorder Option

instance : MonadLift Recording CheckedRecording := ⟨fun m r => some (m r)⟩

namespace Checked

variable {α β : Type}

/-- From the recorder given, no access of the checked action fails, and it does what the action
does. The graph loses no values and stays regular, and something holds of the result and of the
number of values afterwards. -/
structure Agrees (c : CheckedRecording α) (m : Recording α) (r : Recorder)
    (P : α → Nat → Prop) : Prop where
  run_eq : c r = some (m r)
  size_le : r.graph.size ≤ (m r).2.graph.size
  regular : r.graph.Regular → (m r).2.graph.Regular
  result : P (m r).1 (m r).2.graph.size

section Rules

variable {c : CheckedRecording α} {m : Recording α} {r : Recorder} {P : α → Nat → Prop}
  {Q : β → Nat → Prop}

theorem agrees_pure {a : α} (h : P a r.graph.size) : Agrees (pure a) (pure a) r P :=
  ⟨rfl, Nat.le_refl _, id, h⟩

/-- One action after the other. -/
theorem Agrees.bind {d : α → CheckedRecording β} {f : α → Recording β} (h : Agrees c m r P)
    (hNext : ∀ a r', r.graph.size ≤ r'.graph.size → P a r'.graph.size → Agrees (d a) (f a) r' Q) :
    Agrees (c >>= d) (m >>= f) r Q := by
  have hLater := hNext (m r).1 (m r).2 h.size_le h.result
  refine ⟨?_, Nat.le_trans h.size_le hLater.size_le, fun hr => hLater.regular (h.regular hr),
    hLater.result⟩
  show (c r).bind (fun x => d x.1 x.2) = _
  rw [h.run_eq]
  exact hLater.run_eq

/-- What an action does may be said of another one that runs alike. -/
theorem Agrees.of_run_eq {m' : Recording α} (h : Agrees (liftM m') m' r P) (hRun : m r = m' r) :
    Agrees (liftM m) m r P := by
  refine ⟨rfl, ?_, ?_, ?_⟩
  · rw [hRun]
    exact h.size_le
  · rw [hRun]
    exact h.regular
  · rw [hRun]
    exact h.result

/-- An access that succeeds, and what is done with its result. -/
theorem agrees_access {o : Option α} {a : α} {d : α → CheckedRecording β} {m : Recording β}
    (hAccess : o = some a) (hNext : Agrees (d a) m r Q) : Agrees (liftM o >>= d) m r Q := by
  subst hAccess
  exact hNext

theorem agrees_accessed {o : Option α} {a : α} (hAccess : o = some a) (h : P a r.graph.size) :
    Agrees (liftM o) (pure a) r P := by
  subst hAccess
  exact agrees_pure h

theorem agrees_get_bind {d : Recorder → CheckedRecording β} {f : Recorder → Recording β}
    (h : Agrees (d r) (f r) r Q) : Agrees (get >>= d) (get >>= f) r Q :=
  ⟨h.run_eq, h.size_le, h.regular, h.result⟩

/-- Reading a shape changes nothing. -/
theorem agrees_shapeOf_bind {v : ValueId} {d : Shape → CheckedRecording β}
    {f : Shape → Recording β} (h : Agrees (d (r.graph.shape v)) (f (r.graph.shape v)) r Q) :
    Agrees (liftM (Recording.shapeOf v) >>= d) (Recording.shapeOf v >>= f) r Q :=
  ⟨h.run_eq, h.size_le, h.regular, h.result⟩

theorem agrees_literalOf?_bind {v : ValueId} {d : Option Float → CheckedRecording β}
    {f : Option Float → Recording β}
    (h : Agrees (d (r.graph.literal? v)) (f (r.graph.literal? v)) r Q) :
    Agrees (liftM (Recording.literalOf? v) >>= d) (Recording.literalOf? v >>= f) r Q :=
  ⟨h.run_eq, h.size_le, h.regular, h.result⟩

/-- An action that leaves the graph as it is. -/
theorem agrees_of_same (hGraph : (m r).2.graph = r.graph) (h : P (m r).1 r.graph.size) :
    Agrees (liftM m) m r P :=
  ⟨rfl, hGraph ▸ Nat.le_refl _, fun hr => hGraph ▸ hr, hGraph ▸ h⟩

/-- An action that adds one value, an operation on values of the graph or none. -/
theorem agrees_of_push {value : Value} (hGraph : (m r).2.graph = r.graph.push value)
    (hNew : ∀ op operands, value.op? = some (op, operands) →
      (∀ w ∈ operands, w < r.graph.size) ∧ op.Reads (operands.map r.graph.shape))
    (h : P (m r).1 (r.graph.size + 1)) : Agrees (liftM m) m r P := by
  have hSize : (m r).2.graph.size = r.graph.size + 1 := by rw [hGraph, Graph.size_push]
  exact ⟨rfl, by omega, fun hr => hGraph ▸ hr.push hNew, hSize ▸ h⟩

/-- Inputs and constants are no operations. -/
private theorem op?_leaf {shape : Shape} (op : Operation) (operands : List ValueId)
    (h : Value.op? ⟨.leaf, shape⟩ = some (op, operands)) :
    (∀ w ∈ operands, w < r.graph.size) ∧ op.Reads (operands.map r.graph.shape) :=
  absurd h (by simp [Value.op?])

private theorem op?_literal {x : Float} {shape : Shape} (op : Operation) (operands : List ValueId)
    (h : Value.op? ⟨.literal x, shape⟩ = some (op, operands)) :
    (∀ w ∈ operands, w < r.graph.size) ∧ op.Reads (operands.map r.graph.shape) :=
  absurd h (by simp [Value.op?])

theorem agrees_literal (x : Float) :
    Agrees (liftM (Recording.literal x)) (Recording.literal x) r (· < ·) :=
  agrees_of_push rfl op?_literal (Nat.lt_succ_self _)

/-- A failure is recorded, and a placeholder takes the place of the result. -/
theorem agrees_fail (e : RecordingError) :
    Agrees (liftM (Recording.fail e)) (Recording.fail e) r (· < ·) :=
  agrees_of_push rfl op?_literal (Nat.lt_succ_self _)

theorem agrees_pushShaped {op : Operation} {operands : List ValueId} {shape : Shape}
    (hLt : ∀ w ∈ operands, w < r.graph.size) (hReads : op.Reads (operands.map r.graph.shape)) :
    Agrees (liftM (Recording.pushShaped op operands shape))
      (Recording.pushShaped op operands shape) r (· < ·) := by
  refine agrees_of_push rfl ?_ (Nat.lt_succ_self _)
  rintro op' operands' hOp
  obtain ⟨rfl, rfl⟩ := Prod.mk.inj (Option.some.inj hOp)
  exact ⟨hLt, hReads⟩

/-- A tag changes no value. -/
theorem agrees_tag (kind : DerivativeKind) (primal value : ValueId) :
    Agrees (liftM (Recording.tag kind primal value)) (Recording.tag kind primal value) r
      fun _ _ => True :=
  agrees_of_same (Recording.ensures_tag kind primal value).2 trivial

theorem agrees_argument (shape : Shape) (name : Option String) :
    Agrees (liftM (Recording.argument shape name)) (Recording.argument shape name) r (· < ·) :=
  agrees_of_push rfl op?_leaf (Nat.lt_succ_self _)

theorem agrees_derivativeInput (kind : DerivativeKind) (primal : ValueId) :
    Agrees (liftM (Recording.derivativeInput kind primal))
      (Recording.derivativeInput kind primal) r (· < ·) :=
  agrees_of_push (Recording.ensures_tag kind primal r.graph.size).2 op?_leaf
    (Nat.lt_succ_self _)

/-- A value keeps its place, whether its name is accepted or not. -/
theorem agrees_named {v : ValueId} (hv : v < r.graph.size) (name : String)
    (dependsOn : Option (List ValueId)) :
    Agrees (liftM (Recording.named v name dependsOn)) (Recording.named v name dependsOn) r
      (· < ·) := by
  have hNamed : Recording.Ensures (Recording.named v name dependsOn) r fun w r' => w = v ∧
      (r'.graph = r.graph ∨ r'.graph = r.graph.push ⟨.literal 0, []⟩) := by
    unfold Recording.named
    apply Recording.ensures_get_bind
    cases addBinding r.graph r.bindings v name dependsOn with
    | ok bindings => exact ⟨rfl, Or.inl rfl⟩
    | error e => exact ⟨rfl, Or.inr rfl⟩
  -- A name that is refused leaves a placeholder behind, as every failure does.
  obtain ⟨hSame, hGraph | hGraph⟩ := hNamed
  · exact agrees_of_same hGraph (by rw [hSame]; exact hv)
  · exact agrees_of_push hGraph op?_literal (by rw [hSame]; exact Nat.lt_succ_of_lt hv)

theorem agrees_map {c : CheckedRecording α} {m : Recording α} (h : Agrees c m r P) {g : α → β}
    (hg : ∀ a n, P a n → Q (g a) n) : Agrees (g <$> c) (g <$> m) r Q := by
  rw [map_eq_pure_bind, map_eq_pure_bind]
  exact h.bind fun a _ _ ha => agrees_pure (hg a _ ha)

end Rules

/-! ## Operations on values -/

/-- The shape of a value. -/
def shape? (g : Graph) (v : ValueId) : Option Shape := (g.get? v).map (·.shape)

/-- The shapes of several values. -/
def shapes? (g : Graph) (vs : List ValueId) : Option (List Shape) := vs.mapM (shape? g)

/-- Adds an operation whose result shape follows from its operands. -/
def push (op : Operation) (operands : List ValueId) : CheckedRecording ValueId := do
  let g := (← get).graph
  let shapes ← shapes? g operands
  match ← (resultShape op shapes).run with
  | .ok shape => Recording.pushShaped op operands shape
  | .error e => Recording.fail (.shape e)

/-- The operand stretched to a result shape. -/
def stretch (v : ValueId) (shape out : Shape) : CheckedRecording ValueId := do
  if shape = out || (← Recording.literalOf? v).isSome then return v
  else
    let dims ← trailingDims shape.rank out.rank
    Recording.pushShaped (.broadcast dims) [v] out

/-- Adds an elementwise operation on two operands, which are stretched to their common shape. -/
def elementwise (op : Operation) (a b : ValueId) : CheckedRecording ValueId := do
  let sa ← Recording.shapeOf a
  let sb ← Recording.shapeOf b
  match ← (broadcast sa sb).run with
  | .error e => Recording.fail (.elementwise op.name e)
  | .ok out =>
    let a ← stretch a sa out
    let b ← stretch b sb out
    Recording.pushShaped op [a, b] out

/-- Adds elementwise arithmetic. -/
def arith (op : Arith) (a b : ValueId) : CheckedRecording ValueId := elementwise (.arith op) a b

/-- The negation of a value. -/
def neg (a : ValueId) : CheckedRecording ValueId := push .neg [a]

/-- A named function of a value. -/
def call (f : NamedFunction) (a : ValueId) : CheckedRecording ValueId := push (.call f) [a]

/-- A contraction over the axes given. -/
def contract (axes : ContractionAxes) (a b : ValueId) : CheckedRecording ValueId :=
  push (.contract axes) [a, b]

/-- The axes of a matrix product: a right operand of rank one has only the first axis. -/
def matmulAxes? (lhsRank rhsRank : Nat) : Option ContractionAxes := do
  let rhsAxis ← if 2 ≤ rhsRank then minus? rhsRank 2 else some 0
  return ⟨[lhsRank - 1], [rhsAxis], [], []⟩

/-- The matrix product of two values of rank at least one. -/
def matmul (a b : ValueId) : CheckedRecording ValueId := do
  let lhsRank := (← Recording.shapeOf a).rank
  let rhsRank := (← Recording.shapeOf b).rank
  if lhsRank = 0 || rhsRank = 0 then Recording.fail .scalarMatmul
  else
    let axes ← matmulAxes? lhsRank rhsRank
    contract axes a b

/-- The sum over axes. -/
def sum (a : ValueId) (axes : List Nat) : CheckedRecording ValueId := push (.reduceSum axes) [a]

/-- The sum over all axes. -/
def sumAll (a : ValueId) : CheckedRecording ValueId := do sum a (← Recording.shapeOf a).axes

/-- The value with its axes permuted. -/
def transpose (a : ValueId) (permutation : List Nat) : CheckedRecording ValueId :=
  push (.transpose permutation) [a]

/-- The value with its axes in reverse order. -/
def transposeAll (a : ValueId) : CheckedRecording ValueId := do
  transpose a (← Recording.shapeOf a).axes.reverse

/-- The value stretched to a shape, the last axes aligned. -/
def broadcastTo (a : ValueId) (target : Shape) : CheckedRecording ValueId := do
  let own ← Recording.shapeOf a
  if target.rank < own.rank then Recording.fail (.shape (.notBroadcastable own target))
  else
    let dims ← trailingDims own.rank target.rank
    match ← (checkBroadcast own dims target).run with
    | .ok () => Recording.pushShaped (.broadcast dims) [a] target
    | .error e => Recording.fail (.shape e)

/-- The value under another element type. -/
def cast (a : ValueId) (dtype : String) : CheckedRecording ValueId := push (.cast dtype) [a]

section Operations

variable {r : Recorder} {a b : ValueId}

theorem shape?_eq {g : Graph} {v : ValueId} (h : v < g.size) : shape? g v = some (g.shape v) := by
  obtain ⟨value, hGet⟩ := Graph.exists_get? h
  rw [shape?, Graph.shape, hGet]
  rfl

theorem shapes?_eq {g : Graph} {vs : List ValueId} (h : ∀ v ∈ vs, v < g.size) :
    shapes? g vs = some (vs.map g.shape) :=
  mapM_eq_some fun v hv => shape?_eq (h v hv)

/-- Where operands exist, no access of an operation on them fails. -/
theorem agrees_push (op : Operation) {operands : List ValueId}
    (hLt : ∀ w ∈ operands, w < r.graph.size) :
    Agrees (push op operands) (Recording.push op operands) r (· < ·) := by
  unfold push Recording.push
  apply agrees_get_bind
  refine agrees_access (shapes?_eq hLt) (agrees_access (matches_resultShape op _) ?_)
  simp only
  -- An operation is only added with a shape that fits it.
  cases hShape : op.resultShape (operands.map r.graph.shape) with
  | ok shape => exact agrees_pushShaped hLt (Operation.fits_of_resultShape hShape).reads
  | error e => exact agrees_fail _

theorem agrees_push_one (op : Operation) (ha : a < r.graph.size) :
    Agrees (push op [a]) (Recording.push op [a]) r (· < ·) :=
  agrees_push op (by simpa using ha)

/-- An operation on one operand that states its shape. -/
theorem agrees_pushShaped_one {op : Operation} (hOne : op.arity? = some 1)
    (ha : a < r.graph.size) (shape : Shape) :
    Agrees (liftM (Recording.pushShaped op [a] shape)) (Recording.pushShaped op [a] shape) r
      (· < ·) := by
  refine agrees_pushShaped (by simpa using ha) ⟨?_, ?_⟩
  · intro n hn
    rw [hOne] at hn
    exact Option.some.inj hn
  · exact fun _ _ _ _ h => absurd h (by simp)

theorem agrees_stretch (ha : a < r.graph.size) {shape out : Shape} (hRank : shape.rank ≤ out.rank) :
    Agrees (stretch a shape out) (Recording.stretch a shape out) r (· < ·) := by
  unfold stretch Recording.stretch
  apply agrees_literalOf?_bind
  split
  · exact agrees_pure ha
  · exact agrees_access (trailingDims_eq hRank) (agrees_pushShaped_one rfl ha out)

/-- The operands of an elementwise operation are stretched to a shape that is not smaller. -/
theorem agrees_elementwise {op : Operation} (hTwo : op.arity? = some 2)
    (hElementwise : ∀ axes, op ≠ .contract axes) (ha : a < r.graph.size) (hb : b < r.graph.size) :
    Agrees (elementwise op a b) (Recording.elementwise op a b) r (· < ·) := by
  unfold elementwise Recording.elementwise
  apply agrees_shapeOf_bind
  apply agrees_shapeOf_bind
  refine agrees_access (matches_broadcast _ _) ?_
  cases hOut : (r.graph.shape a).broadcast (r.graph.shape b) with
  | error e => exact agrees_fail _
  | ok out =>
    -- The common shape has at least as many axes as each operand.
    obtain ⟨haBelow, hbBelow⟩ := Shape.below_of_broadcast hOut
    refine (agrees_stretch ha haBelow.rank_le).bind fun a' r₁ hSize₁ ha' => ?_
    refine (agrees_stretch (Nat.lt_of_lt_of_le hb hSize₁) hbBelow.rank_le).bind
      fun b' r₂ hSize₂ hb' => ?_
    have hLt : ∀ w ∈ [a', b'], w < r₂.graph.size := by
      simpa using ⟨Nat.lt_of_lt_of_le ha' hSize₂, hb'⟩
    refine agrees_pushShaped hLt ⟨?_, fun axes _ _ h => absurd h (hElementwise axes)⟩
    intro n hn
    rw [hTwo] at hn
    exact Option.some.inj hn

theorem agrees_arith (op : Arith) (ha : a < r.graph.size) (hb : b < r.graph.size) :
    Agrees (arith op a b) (Recording.arith op a b) r (· < ·) :=
  agrees_elementwise rfl (by simp) ha hb

theorem agrees_neg (ha : a < r.graph.size) : Agrees (neg a) (Recording.neg a) r (· < ·) :=
  agrees_push_one _ ha

theorem agrees_call (f : NamedFunction) (ha : a < r.graph.size) :
    Agrees (call f a) (Recording.call f a) r (· < ·) :=
  agrees_push_one _ ha

theorem agrees_contract (axes : ContractionAxes) (ha : a < r.graph.size)
    (hb : b < r.graph.size) :
    Agrees (contract axes a b) (Recording.contract axes a b) r (· < ·) :=
  agrees_push _ (by simpa using ⟨ha, hb⟩)

theorem matmulAxes?_eq (lhsRank rhsRank : Nat) :
    matmulAxes? lhsRank rhsRank = some (.matmul lhsRank rhsRank) := by
  unfold matmulAxes?
  split
  · rename_i hRank
    rw [minus?_of_le hRank]
    rfl
  · -- A vector on the right is contracted over its only axis.
    rename_i hRank
    have hNone : rhsRank - 2 = 0 := by omega
    rw [ContractionAxes.matmul, hNone]
    rfl

theorem agrees_matmul (ha : a < r.graph.size) (hb : b < r.graph.size) :
    Agrees (matmul a b) (Recording.matmul a b) r (· < ·) := by
  unfold matmul Recording.matmul
  apply agrees_shapeOf_bind
  apply agrees_shapeOf_bind
  dsimp only
  split
  · exact agrees_fail _
  · exact agrees_access (matmulAxes?_eq _ _) (agrees_contract _ ha hb)

theorem agrees_sum (ha : a < r.graph.size) (axes : List Nat) :
    Agrees (sum a axes) (Recording.sum a axes) r (· < ·) :=
  agrees_push_one _ ha

theorem agrees_sumAll (ha : a < r.graph.size) :
    Agrees (sumAll a) (Recording.sumAll a) r (· < ·) :=
  agrees_shapeOf_bind (agrees_sum ha _)

theorem agrees_transpose (ha : a < r.graph.size) (permutation : List Nat) :
    Agrees (transpose a permutation) (Recording.transpose a permutation) r (· < ·) :=
  agrees_push_one _ ha

theorem agrees_transposeAll (ha : a < r.graph.size) :
    Agrees (transposeAll a) (Recording.transposeAll a) r (· < ·) :=
  agrees_shapeOf_bind (agrees_transpose ha _)

/-- A reshape reads only shapes, and compares the numbers of entries. -/
theorem agrees_reshape (ha : a < r.graph.size) (target : Shape) :
    Agrees (liftM (Recording.reshape a target)) (Recording.reshape a target) r (· < ·) := by
  have hRun : Recording.reshape a target r = (match (r.graph.shape a).checkReshape target with
      | .ok () => Recording.pushShaped .reshape [a] target
      | .error e => Recording.fail (.shape e)) r := rfl
  cases hCheck : (r.graph.shape a).checkReshape target with
  | ok _ =>
    rw [hCheck] at hRun
    exact (agrees_pushShaped_one rfl ha target).of_run_eq hRun
  | error e =>
    rw [hCheck] at hRun
    exact (agrees_fail _).of_run_eq hRun

theorem agrees_broadcastTo (ha : a < r.graph.size) (target : Shape) :
    Agrees (broadcastTo a target) (Recording.broadcastTo a target) r (· < ·) := by
  unfold broadcastTo Recording.broadcastTo
  apply agrees_shapeOf_bind
  split
  · exact agrees_fail _
  · -- The target has at least as many axes, so the last ones can be counted off.
    rename_i hRank
    refine agrees_access (trailingDims_eq (Nat.not_lt.mp hRank)) ?_
    refine agrees_access (matches_checkBroadcast _ _ _) ?_
    simp only
    cases (r.graph.shape a).checkBroadcast _ target with
    | ok _ => exact agrees_pushShaped_one rfl ha target
    | error e => exact agrees_fail _

theorem agrees_cast (ha : a < r.graph.size) (dtype : String) :
    Agrees (cast a dtype) (Recording.cast a dtype) r (· < ·) :=
  agrees_push_one _ ha

end Operations

/-! ## Primitives by name -/

/-- The operation of a family on the operands given; whether there are as many as it takes was
asked before. -/
def ofFamily (name : String) (family : Family) (operands : List ValueId) :
    CheckedRecording ValueId := do
  let a ← item? operands 0
  match family with
  | .arith op => arith op a (← item? operands 1)
  | .accumulate => elementwise .accumulate a (← item? operands 1)
  | .indicator c => elementwise (.indicator c) a (← item? operands 1)
  | .contract | .matmul => matmul a (← item? operands 1)
  | .neg => neg a
  | .call f => call f a
  | .reduceSum => sumAll a
  | .transpose => transposeAll a
  | .cast => cast a Recording.defaultDtype
  | .broadcast | .reshape => Recording.fail (.targetShapeNeeded name)

/-- Adds an operation by the name of its primitive. -/
def primitive (name : String) (operands : List ValueId) : CheckedRecording ValueId :=
  match primitive? name with
  | none => push (.foreign name) operands
  | some p =>
    if operands.length ≠ p.arity then
      Recording.fail (.shape (.operandCount name p.arity operands.length))
    else ofFamily name p.family operands

/-- The number of operands that the operations of a family read. -/
def familyArity : Family → Nat
  | .arith _ | .accumulate | .indicator _ | .contract | .matmul => 2
  | .neg | .call _ | .reduceSum | .broadcast | .transpose | .reshape | .cast => 1

/-- The table states as many operands as are read. -/
theorem arity_of_primitives : ∀ p ∈ primitives, p.arity = familyArity p.family := by
  decide

theorem agrees_ofFamily (name : String) {family : Family} {operands : List ValueId} {r : Recorder}
    (hArity : operands.length = familyArity family) (hLt : ∀ w ∈ operands, w < r.graph.size) :
    Agrees (ofFamily name family operands) (Recording.ofFamily name family operands) r
      (· < ·) := by
  -- The arity fixes the row of operands, so that no position of it is read in vain.
  cases family with
  | arith | accumulate | indicator =>
    obtain ⟨a, b, rfl⟩ := List.length_eq_two.mp hArity
    exact agrees_elementwise rfl (by simp) (hLt a (by simp)) (hLt b (by simp))
  | contract | matmul =>
    obtain ⟨a, b, rfl⟩ := List.length_eq_two.mp hArity
    exact agrees_matmul (hLt a (by simp)) (hLt b (by simp))
  | neg | call | cast =>
    obtain ⟨a, rfl⟩ := List.length_eq_one_iff.mp hArity
    exact agrees_push_one _ (hLt a (by simp))
  | reduceSum =>
    obtain ⟨a, rfl⟩ := List.length_eq_one_iff.mp hArity
    exact agrees_sumAll (hLt a (by simp))
  | transpose =>
    obtain ⟨a, rfl⟩ := List.length_eq_one_iff.mp hArity
    exact agrees_transposeAll (hLt a (by simp))
  | broadcast | reshape =>
    obtain ⟨a, rfl⟩ := List.length_eq_one_iff.mp hArity
    exact agrees_fail _

theorem agrees_primitive (name : String) {operands : List ValueId} {r : Recorder}
    (hLt : ∀ w ∈ operands, w < r.graph.size) :
    Agrees (primitive name operands) (Recording.primitive name operands) r (· < ·) := by
  unfold primitive Recording.primitive
  cases hName : primitive? name with
  | none => exact agrees_push _ hLt
  | some p =>
    -- As many operands are given as the table states, and these are read.
    have hTable : p.arity = familyArity p.family :=
      arity_of_primitives p (List.mem_of_find?_eq_some hName)
    simp only
    split
    · exact agrees_fail _
    · rename_i hArity
      exact agrees_ofFamily name (by omega) hLt

/-! ## Whole recordings -/

/-- What a call does. -/
def record : RecordingCall → CheckedRecording ValueId
  | .argument shape name => Recording.argument shape name
  | .derivativeInput kind primal => Recording.derivativeInput kind primal
  | .literal x => Recording.literal x
  | .fail message => Recording.fail (.reported message)
  | .tag kind primal value => do
    Recording.tag kind primal value
    return value
  | .named v name dependsOn => Recording.named v name dependsOn
  | .primitive name operands => primitive name operands
  | .arith op a b => arith op a b
  | .compare c a b => elementwise (.indicator c) a b
  | .neg a => neg a
  | .call f a => call f a
  | .matmul a b => matmul a b
  | .contract axes a b => contract axes a b
  | .sum a axes => sum a axes
  | .sumAll a => sumAll a
  | .transpose a permutation => transpose a permutation
  | .reshape a target => Recording.reshape a target
  | .broadcastTo a target => broadcastTo a target
  | .cast a dtype => cast a dtype

/-- What a list of calls does. -/
def recordAll : List RecordingCall → CheckedRecording Unit
  | [] => pure ()
  | c :: calls => do
    let _ ← record c
    recordAll calls

/-- **No access of a call on values of the recording fails**, whatever was recorded before. -/
theorem agrees_record {c : RecordingCall} {r : Recorder}
    (h : ∀ v ∈ c.handles, v < r.graph.size) : Agrees (record c) c.record r (· < ·) := by
  cases c with
  | argument shape name => exact agrees_argument shape name
  | derivativeInput kind primal => exact agrees_derivativeInput kind primal
  | literal x => exact agrees_literal x
  | fail message => exact agrees_fail _
  -- The call hands the tagged value back, so it must still be there.
  | tag kind primal value =>
    have hValue : value < r.graph.size := h value (by simp [RecordingCall.handles])
    refine (agrees_tag kind primal value).bind fun _ r' hSize _ => ?_
    exact agrees_pure (Nat.lt_of_lt_of_le hValue hSize)
  | named v name dependsOn =>
    exact agrees_named (h v (by simp [RecordingCall.handles])) name dependsOn
  | primitive name operands => exact agrees_primitive name h
  | arith | compare =>
    exact agrees_elementwise rfl (by simp) (h _ (by simp [RecordingCall.handles]))
      (h _ (by simp [RecordingCall.handles]))
  | matmul a b =>
    exact agrees_matmul (h a (by simp [RecordingCall.handles]))
      (h b (by simp [RecordingCall.handles]))
  | sumAll a => exact agrees_sumAll (h a (by simp [RecordingCall.handles]))
  | reshape a target => exact agrees_reshape (h a (by simp [RecordingCall.handles])) target
  | broadcastTo a target => exact agrees_broadcastTo (h a (by simp [RecordingCall.handles])) target
  | neg | call | contract | sum | transpose | cast => exact agrees_push _ h

/-- **No access fails in a whole recording**, from a recorder in any state. -/
theorem recordAll_eq {calls : List RecordingCall} {r r' : Recorder}
    (h : r.after? calls = some r') : recordAll calls r = some ((), r') := by
  induction calls generalizing r with
  | nil =>
    obtain rfl := Option.some.inj h
    rfl
  | cons c calls ih =>
    rw [Recorder.after?] at h
    split at h
    · -- The call is made on values of the recording as it is now.
      rename_i hHandles
      have hLt : ∀ v ∈ c.handles, v < r.graph.size := by simpa [Graph.has] using hHandles
      show (record c r).bind (fun x => recordAll calls x.2) = _
      rw [(agrees_record hLt).run_eq]
      exact ih h
    · exact absurd h (by simp)

end Checked

end ArrayEquations
