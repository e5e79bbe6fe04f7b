import ArrayEquations.Proofs.ImportedTrace
import ArrayEquations.Proofs.Recording

/-!
# ArrayEquations — recorded traces can be imported

A recording starts with nothing and goes on by calls, each on values recorded before. Every
call leaves the recorder sound: the graph is well-formed, the arguments are its inputs, and the
annotations speak of values that exist. So a trace that a recording is closed with passes every
check of an import.

## Main definitions

* `Recorder.Sound` — what every call of a recording preserves.
* `RecordingCall` — the calls that a recorded function can make.
* `Recorder.after?` — the recorder after a list of calls.
* `Trace.IsRecorded` — a recording was closed with the trace.

## Main results

* `RecordingCall.records` — one call preserves soundness.
* `Recorder.continues_after?` — a list of calls does.
* `Trace.IsRecorded.importable` — recorded traces pass every check of an import.
* `Trace.ofText_roundTrip` — traces are imported from both of their texts.
-/

namespace ArrayEquations

/-! ## Sound recorders -/

/-- The graph may take the value as its next one. -/
structure Graph.Admits (g : Graph) (value : Value) : Prop where
  accepts : g.Accepts value
  foreign : ∀ name operands, value.op? = some (.foreign name, operands) → primitive? name = none

/-- The graph is well-formed, its inputs are exactly the arguments, and the annotations speak of
values that exist. -/
structure Recorder.Sound (r : Recorder) : Prop where
  graph : r.graph.WellFormed
  foreign : r.graph.ForeignNames
  leaf_of_argument : ∀ a ∈ r.arguments, r.graph.isLeaf a.value = true
  nodup_arguments : (r.arguments.map (·.value)).Nodup
  argument_of_leaf : ∀ v, r.graph.isLeaf v = true → v ∈ r.arguments.map (·.value)
  tag_lt : ∀ tag ∈ r.tags, tag.primal < r.graph.size ∧ tag.value < r.graph.size
  bindings : replayBindings r.graph r.bindings = .ok r.bindings

theorem Graph.Extends.isLeaf_of {g g' : Graph} (h : g.Extends g') {v : ValueId}
    (hLeaf : g.isLeaf v = true) : g'.isLeaf v = true := by
  have hGet : g'.get? v = some ⟨.leaf, g.shape v⟩ := h.get?_of_some (isLeaf_eq_true hLeaf)
  rw [isLeaf, hGet]
  rfl

/-- Only an input that is added is a new input. -/
theorem Graph.isLeaf_push {g : Graph} {value : Value} {v : ValueId}
    (h : (g.push value).isLeaf v = true) :
    g.isLeaf v = true ∨ v = g.size ∧ value.isLeaf = true := by
  have hGet := isLeaf_eq_true h
  rcases get?_push hGet with hOld | ⟨hv, hNew⟩
  · left
    rw [isLeaf, hOld]
    rfl
  · right
    exact ⟨hv, by rw [← hNew]; rfl⟩

/-- If every step of a chain that succeeds also succeeds in another way, so does the chain. -/
theorem foldlM_imp {ε α σ : Type} {f f' : σ → α → Except ε σ}
    (hStep : ∀ s a s', f s a = .ok s' → f' s a = .ok s') {as : List α} {s s' : σ}
    (h : as.foldlM f s = .ok s') : as.foldlM f' s = .ok s' := by
  induction as generalizing s with
  | nil => exact h
  | cons a as ih =>
    rw [List.foldlM_cons] at h ⊢
    obtain ⟨s₁, hOne, hRest⟩ := bind_eq_ok h
    rw [hStep s a s₁ hOne]
    exact ih hRest

/-- Bindings that were accepted are accepted among more values. -/
theorem replayBindings_extend {g g' : Graph} (h : g.Extends g')
    {bindings collected : List Binding} (hReplay : replayBindings g bindings = .ok collected) :
    replayBindings g' bindings = .ok collected := by
  refine foldlM_imp ?_ hReplay
  intro before b after hAdd
  obtain ⟨hCheck, rfl⟩ := addBinding_eq_ok.mp hAdd
  obtain ⟨hName, hValue, hDependencies⟩ := checkBinding_eq_ok.mp hCheck
  refine addBinding_eq_ok.mpr ⟨checkBinding_eq_ok.mpr ⟨hName, ?_, ?_⟩, rfl⟩
  · exact Nat.lt_of_lt_of_le hValue h.size_le
  · intro w hw
    obtain ⟨hLt, hNamed⟩ := checkDependency_eq_ok.mp (hDependencies w hw)
    exact checkDependency_eq_ok.mpr
      ⟨Nat.lt_of_lt_of_le hLt h.size_le, hNamed.imp_left h.isLeaf_of⟩

namespace Recorder.Sound

theorem empty : Recorder.empty.Sound where
  graph := Graph.wellFormed_empty
  foreign _ _ _ h := absurd h (by simp [Recorder.empty, Graph.op?, Graph.get?, Graph.empty])
  leaf_of_argument _ h := absurd h List.not_mem_nil
  nodup_arguments := List.nodup_nil
  argument_of_leaf _ h :=
    absurd h (by simp [Recorder.empty, Graph.isLeaf, Graph.get?, Graph.empty])
  tag_lt _ h := absurd h List.not_mem_nil
  bindings := rfl

variable {r : Recorder}

theorem tag_lt_extend (h : r.Sound) {g : Graph} (hExtends : r.graph.Extends g) :
    ∀ tag ∈ r.tags, tag.primal < g.size ∧ tag.value < g.size := by
  intro tag hTag
  obtain ⟨hPrimal, hValue⟩ := h.tag_lt tag hTag
  exact ⟨Nat.lt_of_lt_of_le hPrimal hExtends.size_le, Nat.lt_of_lt_of_le hValue hExtends.size_le⟩

/-- A constant or an operation that the graph admits. -/
theorem add (h : r.Sound) {value : Value} (hAdmits : r.graph.Admits value)
    (hLeaf : value.isLeaf = false) :
    Recorder.Sound { r with graph := r.graph.push value } := by
  have hExtends := Graph.Extends.push r.graph value
  refine ⟨h.graph.push hAdmits.accepts, h.foreign.push hAdmits.foreign, ?_, h.nodup_arguments, ?_,
    ?_, replayBindings_extend hExtends h.bindings⟩
  · exact fun a ha => hExtends.isLeaf_of (h.leaf_of_argument a ha)
  · intro v hv
    rcases Graph.isLeaf_push hv with hOld | ⟨-, hNew⟩
    · exact h.argument_of_leaf v hOld
    · rw [hLeaf] at hNew
      exact Bool.noConfusion hNew
  · exact h.tag_lt_extend hExtends

/-- An input that becomes an argument. -/
theorem addArgument (h : r.Sound) (shape : Shape) (name : Option String) (derivative : Bool) :
    Recorder.Sound { r with
      graph := r.graph.push ⟨.leaf, shape⟩
      arguments := r.arguments ++ [⟨r.graph.size, name, derivative⟩] } := by
  have hExtends := Graph.Extends.push r.graph (⟨.leaf, shape⟩ : Value)
  have hNew : (r.graph.push ⟨.leaf, shape⟩).isLeaf r.graph.size = true := by
    rw [Graph.isLeaf, Graph.get?_push_size]
    rfl
  refine ⟨h.graph.push trivial, h.foreign.push fun _ _ hOp => absurd hOp (by simp [Value.op?]),
    ?_, ?_, ?_, ?_, replayBindings_extend hExtends h.bindings⟩
  · intro a ha
    rcases List.mem_append.mp ha with ha | ha
    · exact hExtends.isLeaf_of (h.leaf_of_argument a ha)
    · obtain rfl := List.mem_singleton.mp ha
      exact hNew
  · -- The arguments of before are values of before.
    rw [List.map_append, List.nodup_append]
    refine ⟨h.nodup_arguments, List.nodup_singleton _, ?_⟩
    intro v hv w hw hEq
    obtain ⟨a, ha, rfl⟩ := List.mem_map.mp hv
    have hLt := Graph.lt_size_of_get? (Graph.isLeaf_eq_true (h.leaf_of_argument a ha))
    have hSize : w = r.graph.size := by simpa using hw
    rw [hEq, hSize] at hLt
    exact Nat.lt_irrefl _ hLt
  · -- The new leaf is the new argument, and the others were arguments before.
    intro v hv
    rw [List.map_append]
    rcases Graph.isLeaf_push hv with hOld | ⟨rfl, -⟩
    · exact List.mem_append_left _ (h.argument_of_leaf v hOld)
    · exact List.mem_append_right _ List.mem_cons_self
  · exact h.tag_lt_extend hExtends

/-- A tag of values of the graph. -/
theorem addTag (h : r.Sound) {tag : DerivativeTag} (hPrimal : tag.primal < r.graph.size)
    (hValue : tag.value < r.graph.size) :
    Recorder.Sound { r with tags := r.tags ++ [tag] } := by
  refine { h with tag_lt := ?_ }
  intro tag' hTag
  rcases List.mem_append.mp hTag with hTag | hTag
  · exact h.tag_lt tag' hTag
  · obtain rfl := List.mem_singleton.mp hTag
    exact ⟨hPrimal, hValue⟩

/-- A binding that was accepted. -/
theorem addBinding (h : r.Sound) {bindings : List Binding} {value : ValueId} {name : String}
    {dependsOn : Option (List ValueId)}
    (hAdd : ArrayEquations.addBinding r.graph r.bindings value name dependsOn = .ok bindings) :
    Recorder.Sound { r with bindings := bindings } := by
  refine { h with bindings := ?_ }
  have hReplay := h.bindings
  obtain ⟨-, rfl⟩ := addBinding_eq_ok.mp hAdd
  show (r.bindings ++ [_]).foldlM _ [] = _
  rw [replayBindings] at hReplay
  rw [List.foldlM_append, hReplay]
  show ArrayEquations.addBinding r.graph r.bindings value name dependsOn >>= pure = _
  rw [hAdd]
  rfl

end Recorder.Sound

/-! ## Actions -/

/-- The second recorder has more values than the first, and is sound if the first is. -/
structure Recorder.Continues (r r' : Recorder) : Prop where
  graph : r.graph.Extends r'.graph
  sound : r.Sound → r'.Sound

theorem Recorder.Continues.refl (r : Recorder) : r.Continues r := ⟨Graph.Extends.refl _, id⟩

theorem Recorder.Continues.trans {r₁ r₂ r₃ : Recorder} (h₁ : r₁.Continues r₂)
    (h₂ : r₂.Continues r₃) : r₁.Continues r₃ :=
  ⟨h₁.graph.trans h₂.graph, fun h => h₂.sound (h₁.sound h)⟩

namespace Recording

/-- The action goes on with the recording and yields one of its values. -/
def Records (m : Recording ValueId) (r : Recorder) : Prop :=
  Ensures m r fun v r' => r.Continues r' ∧ v < r'.graph.size

variable {r : Recorder} {a b : ValueId}

theorem records_add {value : Value} (hAdmits : r.graph.Admits value)
    (hLeaf : value.isLeaf = false) : Records (add value) r := by
  refine ⟨⟨Graph.Extends.push _ _, fun h => h.add hAdmits hLeaf⟩, ?_⟩
  show r.graph.size < (r.graph.push value).size
  rw [Graph.size_push]
  exact Nat.lt_succ_self _

theorem admits_literal (g : Graph) (x : Float) : g.Admits ⟨.literal x, []⟩ :=
  ⟨rfl, fun _ _ hOp => absurd hOp (by simp [Value.op?])⟩

theorem records_literal (x : Float) : Records (literal x) r :=
  records_add (admits_literal r.graph x) rfl

/-- A failure leaves a placeholder. -/
theorem records_fail (e : RecordingError) : Records (fail e) r := by
  let r₁ : Recorder := { r with error := r.error.or (some e) }
  have hLiteral : Records (literal 0) r₁ := records_literal 0
  obtain ⟨hContinues, hv⟩ := hLiteral
  exact ⟨⟨hContinues.graph, fun h => hContinues.sound { h with }⟩, hv⟩

theorem records_addArgument (shape : Shape) (name : Option String) (derivative : Bool) :
    Records (addArgument shape name derivative) r := by
  refine ⟨⟨Graph.Extends.push _ _, fun h => h.addArgument shape name derivative⟩, ?_⟩
  show r.graph.size < (r.graph.push _).size
  rw [Graph.size_push]
  exact Nat.lt_succ_self _

theorem continues_tag (kind : DerivativeKind) {primal value : ValueId}
    (hPrimal : primal < r.graph.size) (hValue : value < r.graph.size) :
    r.Continues (tag kind primal value r).2 := by
  show r.Continues (if r.tags.contains ⟨kind, primal, value⟩ then r
    else { r with tags := r.tags ++ [⟨kind, primal, value⟩] })
  split
  · exact Recorder.Continues.refl r
  · exact ⟨Graph.Extends.refl _, fun h => h.addTag hPrimal hValue⟩

theorem records_derivativeInput (kind : DerivativeKind) {primal : ValueId}
    (hPrimal : primal < r.graph.size) : Records (derivativeInput kind primal) r := by
  unfold derivativeInput Records
  apply ensures_shapeOf_bind
  apply Ensures.bind (records_addArgument _ _ _)
  rintro v r₁ ⟨hContinues, hv⟩
  have hTag := continues_tag kind (Nat.lt_of_lt_of_le hPrimal hContinues.graph.size_le) hv
  exact ⟨hContinues.trans hTag, Nat.lt_of_lt_of_le hv hTag.graph.size_le⟩

theorem records_named {v : ValueId} (hv : v < r.graph.size) (name : String)
    (dependsOn : Option (List ValueId)) : Records (named v name dependsOn) r := by
  unfold named Records
  apply ensures_get_bind
  cases hAdd : addBinding r.graph r.bindings v name dependsOn with
  | ok bindings =>
    have hContinues : r.Continues { r with bindings := bindings } :=
      ⟨Graph.Extends.refl _, fun h => h.addBinding hAdd⟩
    exact ⟨hContinues, hv⟩
  | error e =>
    obtain ⟨hContinues, -⟩ : Records (fail (.binding e)) r := records_fail _
    exact ⟨hContinues, Nat.lt_of_lt_of_le hv hContinues.graph.size_le⟩

/-! ## Operations -/

/-- An operation on recorded values that fits them. -/
theorem continues_pushShaped {op : Operation} {operands : List ValueId} {s : Shape}
    (hLt : ∀ w ∈ operands, w < r.graph.size) (hFits : op.Fits (operands.map r.graph.shape) s)
    (hForeign : ∀ name, op = .foreign name → primitive? name = none) :
    Ensures (pushShaped op operands s) r fun v r' =>
      r.Continues r' ∧ v < r'.graph.size ∧ r'.graph.shape v = s := by
  have hAdmits : r.graph.Admits ⟨.op op operands, s⟩ := by
    refine ⟨⟨hLt, hFits⟩, ?_⟩
    intro name operands' hOp
    obtain ⟨hName, -⟩ := Prod.mk.inj (Option.some.inj hOp)
    exact hForeign name hName
  obtain ⟨hContinues, hv⟩ : Records (pushShaped op operands s) r := records_add hAdmits rfl
  exact ⟨hContinues, hv, Graph.shape_of_get? (Graph.get?_push_size _ _)⟩

/-- An operation whose shape follows from its operands; one without a shape fails. -/
theorem records_push {op : Operation} {operands : List ValueId}
    (hLt : ∀ w ∈ operands, w < r.graph.size)
    (hForeign : ∀ name, op = .foreign name → primitive? name = none) :
    Records (push op operands) r := by
  unfold push Records
  apply ensures_get_bind
  simp only
  cases hShape : op.resultShape (operands.map r.graph.shape) with
  | error e => exact records_fail _
  | ok s =>
    apply (continues_pushShaped hLt (Operation.fits_of_resultShape hShape) hForeign).imp
    rintro v r' ⟨hContinues, hv, -⟩
    exact ⟨hContinues, hv⟩

/-- A stretched operand has the shape of before or the shape it is stretched to. -/
theorem continues_stretch {out : Shape} (ha : a < r.graph.size)
    (hBelow : (r.graph.shape a).Below out) :
    Ensures (stretch a (r.graph.shape a) out) r fun v r' => r.Continues r' ∧ v < r'.graph.size ∧
      (r'.graph.shape v = out ∨ r'.graph.shape v = r.graph.shape a) := by
  unfold stretch
  apply ensures_literalOf?_bind
  split
  · exact ⟨Recorder.Continues.refl r, ha, Or.inr rfl⟩
  · apply (continues_pushShaped (by simpa using ha) (.broadcast hBelow.stretches) (by simp)).imp
    rintro v r' ⟨hContinues, hv, hShape⟩
    exact ⟨hContinues, hv, Or.inl hShape⟩

/-- An elementwise operation on operands of any shapes. -/
theorem records_elementwise {op : Operation}
    (hFits : ∀ {x y out : Shape}, x.broadcast y = .ok out → op.Fits [x, y] out)
    (hForeign : ∀ name, op ≠ .foreign name) (ha : a < r.graph.size) (hb : b < r.graph.size) :
    Records (elementwise op a b) r := by
  unfold elementwise Records
  apply ensures_shapeOf_bind
  apply ensures_shapeOf_bind
  cases hCommon : (r.graph.shape a).broadcast (r.graph.shape b) with
  | error e => exact records_fail _
  | ok out =>
    obtain ⟨haBelow, hbBelow⟩ := Shape.below_of_broadcast hCommon
    apply Ensures.bind (continues_stretch ha haBelow)
    rintro a' r₁ ⟨hContinues₁, ha', haShape⟩
    -- The second operand is stretched in the graph that has the first one stretched already.
    have hb₁ : b < r₁.graph.size := Nat.lt_of_lt_of_le hb hContinues₁.graph.size_le
    have hbEq : r₁.graph.shape b = r.graph.shape b := hContinues₁.graph.shape_eq hb
    have hbBelow₁ : (r₁.graph.shape b).Below out := hbEq ▸ hbBelow
    have hStretch := continues_stretch hb₁ hbBelow₁
    rw [hbEq] at hStretch
    apply Ensures.bind hStretch
    rintro b' r₂ ⟨hContinues₂, hb', hbShape⟩
    have haEq : r₂.graph.shape a' = r₁.graph.shape a' := hContinues₂.graph.shape_eq ha'
    have ha₂ : a' < r₂.graph.size := Nat.lt_of_lt_of_le ha' hContinues₂.graph.size_le
    have hLt : ∀ w ∈ [a', b'], w < r₂.graph.size := by simp [ha₂, hb']
    have hShapes : (r₂.graph.shape a').broadcast (r₂.graph.shape b') = .ok out :=
      Shape.broadcast_of_stretched hCommon (haEq ▸ haShape) hbShape
    apply (continues_pushShaped hLt (hFits hShapes) fun name hName =>
      absurd hName (hForeign name)).imp
    rintro v r₃ ⟨hContinues₃, hv, -⟩
    exact ⟨(hContinues₁.trans hContinues₂).trans hContinues₃, hv⟩

theorem records_arith (op : Arith) (ha : a < r.graph.size) (hb : b < r.graph.size) :
    Records (arith op a b) r :=
  records_elementwise .arith (by simp) ha hb

theorem records_compare (c : Comparison) (ha : a < r.graph.size) (hb : b < r.graph.size) :
    Records (compare c a b) r :=
  records_elementwise .indicator (by simp) ha hb

theorem records_matmul (ha : a < r.graph.size) (hb : b < r.graph.size) :
    Records (matmul a b) r := by
  unfold matmul Records
  apply ensures_shapeOf_bind
  apply ensures_shapeOf_bind
  simp only
  split
  · exact records_fail _
  · exact records_push (by simp [ha, hb]) (by simp)

theorem records_reshape (ha : a < r.graph.size) (target : Shape) :
    Records (reshape a target) r := by
  unfold reshape Records
  apply ensures_shapeOf_bind
  cases hCheck : (r.graph.shape a).checkReshape target with
  | error e => exact records_fail _
  | ok _ =>
    have hSize := Shape.checkReshape_eq_ok.mp hCheck
    apply (continues_pushShaped (by simpa using ha) (.reshape hSize) (by simp)).imp
    rintro v r' ⟨hContinues, hv, -⟩
    exact ⟨hContinues, hv⟩

theorem records_broadcastTo (ha : a < r.graph.size) (target : Shape) :
    Records (broadcastTo a target) r := by
  unfold broadcastTo Records
  apply ensures_shapeOf_bind
  split
  · exact records_fail _
  · simp only
    cases hCheck : (r.graph.shape a).checkBroadcast
        (trailingDims (r.graph.shape a).rank target.rank) target with
    | error e => exact records_fail _
    | ok _ =>
      have hStretches := Shape.checkBroadcast_eq_ok.mp hCheck
      apply (continues_pushShaped (by simpa using ha) (.broadcast hStretches) (by simp)).imp
      rintro v r' ⟨hContinues, hv, -⟩
      exact ⟨hContinues, hv⟩

theorem records_sumAll (ha : a < r.graph.size) : Records (sumAll a) r := by
  unfold sumAll Records
  apply ensures_shapeOf_bind
  exact records_push (by simpa using ha) (by simp)

theorem records_transposeAll (ha : a < r.graph.size) : Records (transposeAll a) r := by
  unfold transposeAll Records
  apply ensures_shapeOf_bind
  exact records_push (by simpa using ha) (by simp)

theorem records_ofFamily (name : String) (family : Family) {operands : List ValueId}
    (hLt : ∀ w ∈ operands, w < r.graph.size) : Records (ofFamily name family operands) r := by
  unfold ofFamily
  split
  · exact records_arith _ (hLt _ (by simp)) (hLt _ (by simp))
  · exact records_elementwise .accumulate (by simp) (hLt _ (by simp)) (hLt _ (by simp))
  · exact records_compare _ (hLt _ (by simp)) (hLt _ (by simp))
  · exact records_matmul (hLt _ (by simp)) (hLt _ (by simp))
  · exact records_matmul (hLt _ (by simp)) (hLt _ (by simp))
  · exact records_push hLt (by simp)
  · exact records_push hLt (by simp)
  · exact records_sumAll (hLt _ (by simp))
  · exact records_transposeAll (hLt _ (by simp))
  · exact records_push hLt (by simp)
  · exact records_fail _

/-- A primitive by any name: one of the table, or a foreign one. -/
theorem records_primitive (name : String) {operands : List ValueId}
    (hLt : ∀ w ∈ operands, w < r.graph.size) : Records (primitive name operands) r := by
  unfold primitive
  cases hName : primitive? name with
  | none =>
    apply records_push hLt
    intro name' hEq
    obtain rfl := Operation.foreign.inj hEq
    exact hName
  | some p =>
    simp only
    split
    · exact records_fail _
    · exact records_ofFamily name p.family hLt

end Recording

/-! ## Whole recordings -/

/-- The calls that a recorded function can make. A call with a number in place of a value is two
of these: a constant, and a call on it. -/
inductive RecordingCall where
  | argument (shape : Shape) (name : Option String)
  | derivativeInput (kind : DerivativeKind) (primal : ValueId)
  | literal (x : Float)
  /-- A failure that the function itself reports. -/
  | fail (message : String)
  | tag (kind : DerivativeKind) (primal value : ValueId)
  | named (v : ValueId) (name : String) (dependsOn : Option (List ValueId))
  | primitive (name : String) (operands : List ValueId)
  | arith (op : Arith) (a b : ValueId)
  | compare (c : Comparison) (a b : ValueId)
  | neg (a : ValueId)
  | call (f : NamedFunction) (a : ValueId)
  | matmul (a b : ValueId)
  | contract (axes : ContractionAxes) (a b : ValueId)
  | sum (a : ValueId) (axes : List Nat)
  | sumAll (a : ValueId)
  | transpose (a : ValueId) (permutation : List Nat)
  | reshape (a : ValueId) (target : Shape)
  | broadcastTo (a : ValueId) (target : Shape)
  | cast (a : ValueId) (dtype : String)
  deriving DecidableEq

namespace RecordingCall

/-- The values that a call is made on. -/
def handles : RecordingCall → List ValueId
  | .argument _ _ | .literal _ | .fail _ => []
  | .derivativeInput _ primal => [primal]
  | .tag _ primal value => [primal, value]
  | .named v _ dependsOn => v :: dependsOn.getD []
  | .primitive _ operands => operands
  | .arith _ a b | .compare _ a b | .matmul a b | .contract _ a b => [a, b]
  | .neg a | .call _ a | .sum a _ | .sumAll a | .transpose a _ | .reshape a _
  | .broadcastTo a _ | .cast a _ => [a]

/-- What a call does. -/
def record : RecordingCall → Recording ValueId
  | .argument shape name => Recording.argument shape name
  | .derivativeInput kind primal => Recording.derivativeInput kind primal
  | .literal x => Recording.literal x
  | .fail message => Recording.fail (.reported message)
  | .tag kind primal value => do
    Recording.tag kind primal value
    return value
  | .named v name dependsOn => Recording.named v name dependsOn
  | .primitive name operands => Recording.primitive name operands
  | .arith op a b => Recording.arith op a b
  | .compare c a b => Recording.compare c a b
  | .neg a => Recording.neg a
  | .call f a => Recording.call f a
  | .matmul a b => Recording.matmul a b
  | .contract axes a b => Recording.contract axes a b
  | .sum a axes => Recording.sum a axes
  | .sumAll a => Recording.sumAll a
  | .transpose a permutation => Recording.transpose a permutation
  | .reshape a target => Recording.reshape a target
  | .broadcastTo a target => Recording.broadcastTo a target
  | .cast a dtype => Recording.cast a dtype

/-- **A call on values of the recording goes on with it.** -/
theorem records {c : RecordingCall} {r : Recorder} (h : ∀ v ∈ c.handles, v < r.graph.size) :
    Recording.Records c.record r := by
  cases c with
  | argument shape name => exact Recording.records_addArgument shape name false
  | derivativeInput kind primal =>
    exact Recording.records_derivativeInput kind (h primal (by simp [handles]))
  | literal x => exact Recording.records_literal x
  | fail message => exact Recording.records_fail _
  | tag kind primal value =>
    have hPrimal : primal < r.graph.size := h primal (by simp [handles])
    have hValue : value < r.graph.size := h value (by simp [handles])
    -- The tagged value is handed back, which is still there behind the tag.
    have hTag := Recording.continues_tag kind hPrimal hValue
    exact ⟨hTag, Nat.lt_of_lt_of_le hValue hTag.graph.size_le⟩
  | named v name dependsOn =>
    exact Recording.records_named (h v (by simp [handles])) name dependsOn
  | primitive name operands => exact Recording.records_primitive name h
  | arith op a b =>
    exact Recording.records_arith op (h a (by simp [handles])) (h b (by simp [handles]))
  | compare c a b =>
    exact Recording.records_compare c (h a (by simp [handles])) (h b (by simp [handles]))
  | matmul a b => exact Recording.records_matmul (h a (by simp [handles])) (h b (by simp [handles]))
  | sumAll a => exact Recording.records_sumAll (h a (by simp [handles]))
  | reshape a target => exact Recording.records_reshape (h a (by simp [handles])) target
  | broadcastTo a target => exact Recording.records_broadcastTo (h a (by simp [handles])) target
  | neg | call | contract | sum | transpose | cast => exact Recording.records_push h (by simp)

end RecordingCall

namespace Recorder

/-- The recorder after calls, each on values of the recording. -/
def after? (r : Recorder) : List RecordingCall → Option Recorder
  | [] => some r
  | c :: calls => if c.handles.all r.graph.has then (c.record r).2.after? calls else none

/-- **A list of calls goes on with the recording**, as each of its calls does. -/
theorem continues_after? {r r' : Recorder} {calls : List RecordingCall}
    (h : r.after? calls = some r') : r.Continues r' := by
  induction calls generalizing r with
  | nil =>
    obtain rfl := Option.some.inj h
    exact Continues.refl r
  | cons c calls ih =>
    rw [after?] at h
    split at h
    · rename_i hHandles
      have hLt : ∀ v ∈ c.handles, v < r.graph.size := by
        simpa [Graph.has] using hHandles
      obtain ⟨hOne, -⟩ := RecordingCall.records hLt
      exact hOne.trans (ih h)
    · exact absurd h (by simp)

end Recorder

namespace Trace

/-- A recording of calls was closed with the trace. -/
def IsRecorded (t : Trace) : Prop :=
  ∃ calls r name outputs, Recorder.empty.after? calls = some r ∧ r.finish name outputs = .ok t

/-- **A recorded trace passes every check of an import.** -/
theorem IsRecorded.importable {t : Trace} (h : t.IsRecorded) : t.Importable := by
  obtain ⟨calls, r, name, outputs, hAfter, hFinish⟩ := h
  have hSound : r.Sound := (Recorder.continues_after? hAfter).sound Recorder.Sound.empty
  obtain ⟨-, hNonempty, hLt, rfl⟩ := Recorder.finish_eq_ok hFinish
  exact ⟨⟨hSound.graph, hSound.leaf_of_argument, hSound.nodup_arguments, hSound.argument_of_leaf,
    hNonempty, hLt, hSound.bindings⟩, hSound.foreign, hSound.tag_lt⟩

/-- **Recorded traces and imported traces are imported from both of their texts**, as they were
with all names, tags and parameters. Their numbers are of the types that documents have for them,
and the numerals of their constants stand for the constants, which thus are finite. -/
theorem ofText_roundTrip {t : Trace} (h : t.IsRecorded ∨ ∃ text, ofText text = .ok t)
    (hSized : t.Sized) (hExact : ∀ v x, t.graph.literal? v = some x → ExactInDocument x) :
    ofText t.prettyText = .ok t ∧ ofText t.compactText = .ok t := by
  rcases h with hRecorded | ⟨text, hText⟩
  · exact hRecorded.importable.ofText_eq_ok hSized hExact
  · exact (importable_of_ofText hText).ofText_eq_ok hSized hExact

/-- A matrix and a vector are added and doubled, and handed on to an operation without a rule. -/
def doubledSumCalls : List RecordingCall :=
  [ .argument [2, 3] (some "x"), .argument [3] none, .arith .add 0 1,
    .named 3 "s" (some [0, 1]), .literal 2, .arith .mul 4 3, .primitive "smooth" [5],
    .tag .tangent 3 6 ]

/-- The trace of these calls; the vector is stretched before it is added. -/
def doubledSum : Trace where
  name := "f"
  graph := ⟨#[⟨.leaf, [2, 3]⟩, ⟨.leaf, [3]⟩, ⟨.op (.broadcast [1]) [1], [2, 3]⟩,
    ⟨.op (.arith .add) [0, 2], [2, 3]⟩, ⟨.literal 2, []⟩, ⟨.op (.arith .mul) [4, 3], [2, 3]⟩,
    ⟨.op (.foreign "smooth") [5], [2, 3]⟩]⟩
  arguments := [⟨0, some "x", false⟩, ⟨1, none, false⟩]
  bindings := [⟨0, "s", 3, some [0, 1]⟩]
  tags := [⟨.tangent, 3, 6⟩]
  outputs := [6]

theorem ofText_roundTrip_doubledSum :
    ofText doubledSum.prettyText = .ok doubledSum ∧
      ofText doubledSum.compactText = .ok doubledSum := by
  have hRecorded : doubledSum.IsRecorded := by
    exact ⟨doubledSumCalls, ⟨doubledSum.graph, doubledSum.arguments, doubledSum.bindings,
      doubledSum.tags, none⟩, "f", [6], by decide, by decide⟩
  have hShapes : ∀ v, (∀ n ∈ doubledSum.graph.shape v, n < wordBound) ∧
      (doubledSum.graph.shape v).rank ≤ wordBound := by
    intro v
    match v with
    | 0 | 1 | 2 | 3 | 4 | 5 | 6 => decide
    | _ + 7 => exact ⟨fun n hn => absurd hn List.not_mem_nil, Nat.zero_le _⟩
  -- The only constant is a two, which is written with one digit.
  have hConstants : ∀ v x, doubledSum.graph.literal? v = some x → ExactInDocument x := by
    intro v x hx
    match v with
    | 4 =>
      obtain rfl := Option.some.inj hx
      exact ⟨⟨false, ['2'], ['0'], none⟩, by decide, rfl⟩
    | 0 | 1 | 2 | 3 | 5 | 6 | _ + 7 =>
      exact absurd hx (by simp [Graph.literal?, Graph.get?, doubledSum, Value.literal?])
  exact ofText_roundTrip (Or.inl hRecorded)
    ⟨by decide, fun v => (hShapes v).1, fun v => (hShapes v).2⟩ hConstants

end Trace

end ArrayEquations
