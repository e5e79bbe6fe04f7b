import ArrayEquations.Derivative.Transform
import ArrayEquations.Script.Capture
import ArrayEquations.Proofs.RecordedTrace

/-!
# ArrayEquations — what every recording preserves

All that a recording does to its recorder is done in changes of five kinds: a value is added to the
graph, an input to the arguments, a tag or a name is added, or a failure is noted. A property that
none of these takes away is preserved by every action, on whatever handles it is made and whatever
it reports: by the calls of a recorded function, by both directions of a differentiation, and by the
evaluation of a script.

## Main definitions

* `Recorder.Lasting` — no single change takes the property away.
* `Recording.Preserves` — a recorder with the property has it after the action.

## Main results

* `RecordingCall.preserves_record` — every call of a recorded function preserves a lasting property.
* `preserves_recordForward`, `preserves_recordReverse` — so do both directions of a differentiation.
* `Script.preserves_record` — and the evaluation of a script.
-/

namespace ArrayEquations

/-- No single change of a recorder takes the property away. -/
structure Recorder.Lasting (P : Recorder → Prop) : Prop where
  value : ∀ r v, P r → P { r with graph := r.graph.push v }
  argument : ∀ r a, P r → P { r with arguments := r.arguments ++ [a] }
  tag : ∀ r t, P r → P { r with tags := r.tags ++ [t] }
  failure : ∀ r e, P r → P { r with error := r.error.or (some e) }
  named : ∀ r v name dependsOn bindings, P r →
    addBinding r.graph r.bindings v name dependsOn = .ok bindings →
      P { r with bindings := bindings }

variable {P : Recorder → Prop}

namespace Recording

/-- A recorder with the property has it after the action. -/
def Preserves {α : Type} (P : Recorder → Prop) (m : Recording α) : Prop :=
  ∀ r, P r → Ensures m r fun _ r' => P r'

/-! ## Actions one after the other -/

section Sequences

variable {ε α β : Type} {m : Recording α} {f : α → Recording β}

theorem preserves_pure (a : α) : Preserves P (pure a) := fun _ hr => hr

theorem preserves_get : Preserves P (get : Recording Recorder) := fun _ hr => hr

theorem Preserves.bind (h : Preserves P m) (hNext : ∀ a, Preserves P (f a)) :
    Preserves P (m >>= f) := fun r hr => hNext _ _ (h r hr)

theorem Preserves.map (h : Preserves P m) (g : α → β) : Preserves P (g <$> m) := h

theorem preserves_foldlM {f : β → α → Recording β} (h : ∀ b a, Preserves P (f b a)) (as : List α)
    (b : β) : Preserves P (as.foldlM f b) := by
  induction as generalizing b with
  | nil => exact preserves_pure b
  | cons a as ih => exact (h b a).bind ih

theorem preserves_mapM (h : ∀ a, Preserves P (f a)) (as : List α) : Preserves P (as.mapM f) := by
  induction as with
  | nil => exact preserves_pure []
  | cons a as ih =>
    rw [List.mapM_cons]
    exact (h a).bind fun b => ih.bind fun bs => preserves_pure (b :: bs)

/-! An action that may throw leaves the recorder as it is where it stops. -/

variable {x : ExceptT ε Recording α} {g : α → ExceptT ε Recording β}

theorem preserves_run_pure (a : α) : Preserves P (pure a : ExceptT ε Recording α).run :=
  fun _ hr => hr

theorem preserves_throw (e : ε) : Preserves P (throw e : ExceptT ε Recording α).run :=
  fun _ hr => hr

theorem Preserves.lift (h : Preserves P m) : Preserves P (liftM m : ExceptT ε Recording α).run := h

theorem Preserves.run_bind (h : Preserves P x.run) (hNext : ∀ a, Preserves P (g a).run) :
    Preserves P (x >>= g).run := by
  rw [ExceptT.run_bind]
  refine h.bind fun result => ?_
  cases result with
  | ok a => exact hNext a
  | error e => exact preserves_throw e

theorem preserves_run_foldlM {g : β → α → ExceptT ε Recording β}
    (h : ∀ b a, Preserves P (g b a).run) (as : List α) (b : β) :
    Preserves P (as.foldlM g b).run := by
  induction as generalizing b with
  | nil => exact preserves_run_pure b
  | cons a as ih => exact (h b a).run_bind ih

theorem preserves_run_mapM (h : ∀ a, Preserves P (g a).run) (as : List α) :
    Preserves P (as.mapM g).run := by
  induction as with
  | nil => exact preserves_run_pure []
  | cons a as ih =>
    rw [List.mapM_cons]
    exact (h a).run_bind fun b => ih.run_bind fun bs => preserves_run_pure (b :: bs)

end Sequences

/-! ## Reading -/

theorem preserves_shapeOf (v : ValueId) : Preserves P (shapeOf v) := fun _ hr => hr

theorem preserves_literalOf? (v : ValueId) : Preserves P (literalOf? v) := fun _ hr => hr

/-! ## Inputs, constants and annotations -/

variable (hP : Recorder.Lasting P)
include hP

theorem preserves_add (v : Value) : Preserves P (add v) := fun r hr => hP.value r v hr

theorem preserves_addArgument (shape : Shape) (name : Option String) (derivative : Bool) :
    Preserves P (addArgument shape name derivative) := by
  intro r hr
  have hAdded := hP.value r ⟨.leaf, shape⟩ hr
  exact hP.argument _ ⟨r.graph.size, name, derivative⟩ hAdded

theorem preserves_literal (x : Float) : Preserves P (literal x) := preserves_add hP _

theorem preserves_fail (e : RecordingError) : Preserves P (fail e) := by
  intro r hr
  have hNoted := hP.failure r e hr
  -- A zero stands for the result that is missing.
  exact preserves_literal hP 0 _ hNoted

theorem preserves_tag (kind : DerivativeKind) (primal value : ValueId) :
    Preserves P (tag kind primal value) := by
  intro r hr
  show P (if r.tags.contains ⟨kind, primal, value⟩ then r
    else { r with tags := r.tags ++ [⟨kind, primal, value⟩] })
  split
  · exact hr
  · exact hP.tag r _ hr

theorem preserves_derivativeInput (kind : DerivativeKind) (primal : ValueId) :
    Preserves P (derivativeInput kind primal) :=
  (preserves_shapeOf primal).bind fun s => (preserves_addArgument hP s none true).bind fun v =>
    (preserves_tag hP kind primal v).bind fun _ => preserves_pure v

/-- A name that is refused is noted as a failure. -/
theorem preserves_named (v : ValueId) (name : String) (dependsOn : Option (List ValueId)) :
    Preserves P (named v name dependsOn) := by
  intro r hr
  unfold named
  apply ensures_get_bind
  cases hAdd : addBinding r.graph r.bindings v name dependsOn with
  | ok bindings => exact hP.named r v name dependsOn bindings hr hAdd
  | error e => exact preserves_fail hP (.binding e) r hr

/-! ## Operations -/

theorem preserves_pushShaped (op : Operation) (operands : List ValueId) (shape : Shape) :
    Preserves P (pushShaped op operands shape) := preserves_add hP _

theorem preserves_push (op : Operation) (operands : List ValueId) :
    Preserves P (push op operands) := by
  refine preserves_get.bind fun r => ?_
  dsimp only
  split
  · exact preserves_pushShaped hP _ _ _
  · exact preserves_fail hP _

theorem preserves_stretch (v : ValueId) (shape out : Shape) :
    Preserves P (stretch v shape out) := by
  refine (preserves_literalOf? v).bind fun constant => ?_
  split
  · exact preserves_pure v
  · exact preserves_pushShaped hP _ _ _

theorem preserves_elementwise (op : Operation) (a b : ValueId) :
    Preserves P (elementwise op a b) := by
  refine (preserves_shapeOf a).bind fun sa => (preserves_shapeOf b).bind fun sb => ?_
  split
  · exact preserves_fail hP _
  · exact (preserves_stretch hP a _ _).bind fun a' => (preserves_stretch hP b _ _).bind fun b' =>
      preserves_pushShaped hP _ _ _

theorem preserves_arith (op : Arith) (a b : ValueId) : Preserves P (arith op a b) :=
  preserves_elementwise hP _ a b

theorem preserves_neg (a : ValueId) : Preserves P (neg a) := preserves_push hP _ _

theorem preserves_call (f : NamedFunction) (a : ValueId) : Preserves P (call f a) :=
  preserves_push hP _ _

theorem preserves_contract (axes : ContractionAxes) (a b : ValueId) :
    Preserves P (contract axes a b) := preserves_push hP _ _

theorem preserves_matmul (a b : ValueId) : Preserves P (matmul a b) := by
  refine (preserves_shapeOf a).bind fun sa => (preserves_shapeOf b).bind fun sb => ?_
  dsimp only
  split
  · exact preserves_fail hP _
  · exact preserves_contract hP _ a b

theorem preserves_sum (a : ValueId) (axes : List Nat) : Preserves P (sum a axes) :=
  preserves_push hP _ _

theorem preserves_sumAll (a : ValueId) : Preserves P (sumAll a) :=
  (preserves_shapeOf a).bind fun s => preserves_sum hP a s.axes

theorem preserves_transpose (a : ValueId) (permutation : List Nat) :
    Preserves P (transpose a permutation) := preserves_push hP _ _

theorem preserves_transposeAll (a : ValueId) : Preserves P (transposeAll a) :=
  (preserves_shapeOf a).bind fun s => preserves_transpose hP a s.axes.reverse

theorem preserves_reshape (a : ValueId) (target : Shape) : Preserves P (reshape a target) := by
  refine (preserves_shapeOf a).bind fun s => ?_
  split
  · exact preserves_pushShaped hP _ _ _
  · exact preserves_fail hP _

theorem preserves_broadcastTo (a : ValueId) (target : Shape) :
    Preserves P (broadcastTo a target) := by
  refine (preserves_shapeOf a).bind fun s => ?_
  split
  · exact preserves_fail hP _
  · dsimp only
    split
    · exact preserves_pushShaped hP _ _ _
    · exact preserves_fail hP _

theorem preserves_cast (a : ValueId) (dtype : String) : Preserves P (cast a dtype) :=
  preserves_push hP _ _

/-- An operation by the name of its primitive, with any operands. -/
theorem preserves_primitive (name : String) (operands : List ValueId) :
    Preserves P (primitive name operands) := by
  unfold primitive
  split
  · -- A name that is not known becomes a foreign operation; otherwise the arity is checked, and
    -- then one operation is recorded for the family.
    exact preserves_push hP _ _
  · split
    · exact preserves_fail hP _
    · unfold ofFamily
      split
      · exact preserves_arith hP _ _ _
      · exact preserves_elementwise hP _ _ _
      · exact preserves_elementwise hP _ _ _
      · exact preserves_matmul hP _ _
      · exact preserves_matmul hP _ _
      · exact preserves_neg hP _
      · exact preserves_call hP _ _
      · exact preserves_sumAll hP _
      · exact preserves_transposeAll hP _
      · exact preserves_cast hP _ _
      · exact preserves_fail hP _

end Recording

open Recording

/-- **Every call of a recorded function preserves a lasting property**, also one on handles that no
value belongs to. -/
theorem RecordingCall.preserves_record (hP : Recorder.Lasting P) (c : RecordingCall) :
    Preserves P c.record := by
  cases c with
  | argument shape name => exact preserves_addArgument hP shape name false
  | derivativeInput kind primal => exact preserves_derivativeInput hP kind primal
  | literal x => exact preserves_literal hP x
  | fail message => exact preserves_fail hP _
  | tag kind primal value =>
    exact (preserves_tag hP kind primal value).bind fun _ => preserves_pure value
  | named v name dependsOn => exact preserves_named hP v name dependsOn
  | primitive name operands => exact preserves_primitive hP name operands
  | arith op a b => exact preserves_arith hP op a b
  | compare c a b => exact preserves_elementwise hP _ a b
  | neg a => exact preserves_neg hP a
  | call f a => exact preserves_call hP f a
  | matmul a b => exact preserves_matmul hP a b
  | contract axes a b => exact preserves_contract hP axes a b
  | sum a axes => exact preserves_sum hP a axes
  | sumAll a => exact preserves_sumAll hP a
  | transpose a permutation => exact preserves_transpose hP a permutation
  | reshape a target => exact preserves_reshape hP a target
  | broadcastTo a target => exact preserves_broadcastTo hP a target
  | cast a dtype => exact preserves_cast hP a dtype

/-! ## Differentiation -/

section Differentiation

variable (hP : Recorder.Lasting P)
include hP

namespace Recording

omit hP in
theorem preserves_through (d : Option ValueId) {f : ValueId → Recording ValueId}
    (h : ∀ v, Preserves P (f v)) : Preserves P (through d f) := by
  cases d with
  | none => exact preserves_pure none
  | some v => exact (h v).map some

theorem preserves_arithRight (op : Arith) (a : ValueId) (x : Float) :
    Preserves P (arithRight op a x) :=
  (preserves_literal hP x).bind fun c => preserves_arith hP op a c

theorem preserves_arithLeft (op : Arith) (x : Float) (b : ValueId) :
    Preserves P (arithLeft op x b) :=
  (preserves_literal hP x).bind fun c => preserves_arith hP op c b

theorem preserves_powerSlope (a b : ValueId) : Preserves P (powerSlope a b) := by
  refine (preserves_literalOf? b).bind fun constant => ?_
  cases constant with
  | some c =>
    dsimp only
    split
    · exact preserves_arithLeft hP .mul c a
    · exact (preserves_arithRight hP .pow a (c - 1)).bind fun power =>
        preserves_arithLeft hP .mul c power
  | none =>
    exact (preserves_arithRight hP .sub b 1).bind fun exponent =>
      (preserves_arith hP .pow a exponent).bind fun power => preserves_arith hP .mul b power

theorem preserves_positive (a : ValueId) : Preserves P (positive a) :=
  (preserves_literal hP 0).bind fun origin => preserves_elementwise hP _ a origin

end Recording

namespace Forward

theorem preserves_add (a b : Option ValueId) : Preserves P (Forward.add a b) := by
  match a, b with
  | some a, some b => exact (preserves_arith hP .add a b).map some
  | some a, none => exact preserves_pure (some a)
  | none, b => cases b <;> exact preserves_pure _

theorem preserves_sub (a b : Option ValueId) : Preserves P (Forward.sub a b) := by
  match a, b with
  | some a, some b => exact (preserves_arith hP .sub a b).map some
  | some a, none => exact preserves_pure (some a)
  | none, some b => exact (preserves_neg hP b).map some
  | none, none => exact preserves_pure none

theorem preserves_accumulate (a b : Option ValueId) : Preserves P (Forward.accumulate a b) := by
  match a, b with
  | some a, some b => exact (preserves_elementwise hP .accumulate a b).map some
  | some a, none => exact preserves_pure (some a)
  | none, b => cases b <;> exact preserves_pure _

theorem preserves_callTangent (f : NamedFunction) (a out t : ValueId) :
    Preserves P (callTangent f a out t) := by
  cases f with
  | relu => exact (preserves_positive hP a).bind fun slope => preserves_arith hP .mul slope t
  | exp => exact preserves_arith hP .mul out t
  | log => exact preserves_arith hP .div t a
  | sin => exact (preserves_call hP .cos a).bind fun slope => preserves_arith hP .mul slope t
  | cos =>
    exact (preserves_call hP .sin a).bind fun slope =>
      (preserves_arith hP .mul slope t).bind fun product => preserves_neg hP product
  | tanh =>
    exact (preserves_arithRight hP .pow out 2).bind fun square =>
      (preserves_arithLeft hP .sub 1 square).bind fun slope => preserves_arith hP .mul slope t
  | sqrt =>
    exact (preserves_arithLeft hP .mul 2 out).bind fun double => preserves_arith hP .div t double

theorem preserves_arithTangent (op : Arith) (a b out : ValueId) (ta tb : Option ValueId) :
    Preserves P (arithTangent op a b out ta tb) := by
  cases op with
  | add => exact preserves_add hP ta tb
  | sub => exact preserves_sub hP ta tb
  | mul =>
    have hLeft := preserves_through ta fun t => preserves_arith hP .mul t b
    have hRight := preserves_through tb fun t => preserves_arith hP .mul a t
    exact hLeft.bind fun l => hRight.bind fun r => preserves_add hP l r
  | div =>
    have hLeft := preserves_through ta fun t => preserves_arith hP .div t b
    have hRight := preserves_through tb fun t => (preserves_arith hP .mul a t).bind fun product =>
      (preserves_arithRight hP .pow b 2).bind fun square => preserves_arith hP .div product square
    exact hLeft.bind fun l => hRight.bind fun r => preserves_sub hP l r
  | pow =>
    have hLeft := preserves_through ta fun t => (preserves_powerSlope hP a b).bind fun slope =>
      preserves_arith hP .mul slope t
    have hRight := preserves_through tb fun t => (preserves_call hP .log a).bind fun log =>
      (preserves_arith hP .mul out log).bind fun slope => preserves_arith hP .mul slope t
    exact hLeft.bind fun l => hRight.bind fun r => preserves_add hP l r

end Forward

theorem preserves_tangentOf (op : Operation) (operands : List ValueId) (out : ValueId)
    (shape : Shape) (tangents : Derivatives) :
    Preserves P (tangentOf op operands out shape tangents).run := by
  unfold tangentOf
  dsimp only
  split
  · -- Without tangents of the operands nothing is recorded.
    exact preserves_run_pure none
  · cases op with
    | arith op => exact (Forward.preserves_arithTangent hP op _ _ out _ _).lift
    | accumulate => exact (Forward.preserves_accumulate hP _ _).lift
    | neg => exact (preserves_through _ (preserves_neg hP)).lift
    | call f => exact (preserves_through _ (Forward.preserves_callTangent hP f _ out)).lift
    | indicator c => exact preserves_run_pure none
    | contract axes =>
      have hLeft := preserves_through (tangents (operands.getD 0 0)) fun t =>
        preserves_contract hP axes t (operands.getD 1 0)
      have hRight := preserves_through (tangents (operands.getD 1 0)) fun t =>
        preserves_contract hP axes (operands.getD 0 0) t
      exact hLeft.lift.run_bind fun l => hRight.lift.run_bind fun r =>
        (Forward.preserves_add hP l r).lift
    | reduceSum axes => exact (preserves_through _ fun t => preserves_sum hP t axes).lift
    | broadcast dims =>
      exact (preserves_through _ fun t => preserves_pushShaped hP _ [t] shape).lift
    | transpose permutation =>
      exact (preserves_through _ fun t => preserves_transpose hP t permutation).lift
    | reshape => exact (preserves_through _ fun t => preserves_reshape hP t shape).lift
    | cast dtype => exact (preserves_through _ fun t => preserves_cast hP t dtype).lift
    | foreign name => exact preserves_throw _

theorem preserves_carryTangent (g : Graph) (tangents : Derivatives) (v : ValueId) :
    Preserves P (carryTangent g tangents v).run := by
  unfold carryTangent
  split
  · exact preserves_run_pure tangents
  · refine (preserves_tangentOf hP _ _ v _ tangents).run_bind fun t => ?_
    cases t with
    | none => exact preserves_run_pure tangents
    | some t =>
      exact (preserves_tag hP .tangent v t).lift.run_bind fun _ => preserves_run_pure _

theorem preserves_outputTangent (tangents : Derivatives) (o : ValueId) :
    Preserves P (outputTangent tangents o) := by
  unfold outputTangent
  have hTag : ∀ t, Preserves P (do Recording.tag .tangent o t; return t) := fun t =>
    (preserves_tag hP .tangent o t).bind fun _ => preserves_pure t
  split
  · exact (preserves_pure _).bind hTag
  · exact (preserves_literal hP 0).bind hTag

/-- **The forward direction preserves a lasting property**, of any graph. -/
theorem preserves_recordForward (g : Graph) (arguments outputs : List ValueId) :
    Preserves P (recordForward g arguments outputs).run := by
  have hSeeds : Preserves P (seedTangents arguments) :=
    preserves_foldlM (fun tangents a => (preserves_derivativeInput hP .tangent a).bind fun t =>
      preserves_pure _) arguments _
  refine hSeeds.lift.run_bind fun seeds => ?_
  have hCarried := preserves_run_foldlM (preserves_carryTangent hP g) g.ids
  refine (hCarried seeds).run_bind fun tangents => ?_
  have hOutputs : Preserves P (outputTangents tangents outputs) :=
    preserves_mapM (preserves_outputTangent hP tangents) outputs
  exact hOutputs.lift.run_bind fun ts => preserves_run_pure _

namespace Reverse

variable (x : Reverse)

theorem preserves_times (a b : ValueId) : Preserves P (x.times a b) := by
  have hUnit : ∀ v, Preserves P (x.isUnit v) := fun v _ hr => hr
  refine (hUnit a).bind fun unit => ?_
  split
  · exact preserves_pure b
  · refine (hUnit b).bind fun unit => ?_
    split
    · exact preserves_pure a
    · exact preserves_arith hP .mul a b

theorem preserves_sumOver (v : ValueId) (axes : List Nat) : Preserves P (sumOver v axes) := by
  unfold sumOver
  split
  · exact preserves_pure v
  · exact preserves_sum hP v axes

theorem preserves_unbroadcast (contribution : ValueId) (target : Shape) :
    Preserves P (unbroadcast contribution target) := by
  refine (preserves_shapeOf contribution).bind fun shape => ?_
  split
  · exact preserves_pure contribution
  -- The axes that were stretched are summed, and if the shape is still another one it is changed.
  · refine (preserves_sumOver hP _ _).bind fun summed => (preserves_shapeOf summed).bind fun s => ?_
    split
    · exact preserves_pure summed
    · split
      · exact preserves_reshape hP summed target
      · exact preserves_broadcastTo hP summed target

theorem preserves_arrange (v : ValueId) (order : List Nat) : Preserves P (arrange v order) := by
  unfold arrange
  split
  · exact preserves_pure v
  · exact preserves_transpose hP v _

theorem preserves_callContribution (f : NamedFunction) (a out ct : ValueId) :
    Preserves P (x.callContribution f a out ct) := by
  cases f with
  | relu => exact (preserves_positive hP a).bind fun slope => preserves_times hP x slope ct
  | exp => exact preserves_times hP x ct out
  | log => exact preserves_arith hP .div ct a
  | sin => exact (preserves_call hP .cos a).bind fun slope => preserves_times hP x ct slope
  | cos =>
    exact (preserves_call hP .sin a).bind fun slope =>
      (preserves_times hP x ct slope).bind fun product => preserves_neg hP product
  | tanh =>
    exact (preserves_arithRight hP .pow out 2).bind fun square =>
      (preserves_arithLeft hP .sub 1 square).bind fun slope => preserves_times hP x ct slope
  | sqrt =>
    exact (preserves_arithLeft hP .mul 2 out).bind fun double => preserves_arith hP .div ct double

theorem preserves_lhsContribution (op : Arith) (a b ct : ValueId) :
    Preserves P (x.lhsContribution op a b ct) := by
  cases op with
  | add | sub => exact preserves_pure ct
  | mul => exact preserves_times hP x ct b
  | div => exact preserves_arith hP .div ct b
  | pow => exact (preserves_powerSlope hP a b).bind fun slope => preserves_times hP x ct slope

theorem preserves_rhsContribution (op : Arith) (a b out ct : ValueId) :
    Preserves P (x.rhsContribution op a b out ct) := by
  cases op with
  | add => exact preserves_pure ct
  | sub => exact preserves_neg hP ct
  | mul => exact preserves_times hP x a ct
  | div =>
    exact (preserves_times hP x ct a).bind fun product =>
      (preserves_arithRight hP .pow b 2).bind fun square =>
        (preserves_arith hP .div product square).bind fun quotient => preserves_neg hP quotient
  | pow =>
    exact (preserves_call hP .log a).bind fun log =>
      (preserves_arith hP .mul out log).bind fun slope => preserves_times hP x ct slope

theorem preserves_broadcastContribution (operand : Shape) (dims : List Nat) (target : Shape)
    (ct : ValueId) : Preserves P (broadcastContribution operand dims target ct) := by
  refine (preserves_sumOver hP ct _).bind fun summed => (preserves_shapeOf summed).bind fun s => ?_
  split
  · exact preserves_pure summed
  · exact preserves_reshape hP summed operand

theorem preserves_contractLhs (axes : ContractionAxes) (lhsRank rhsRank : Nat) (b ct : ValueId) :
    Preserves P (contractLhs axes lhsRank rhsRank b ct) :=
  (preserves_contract hP _ ct b).bind fun product => preserves_arrange hP product _

theorem preserves_contractRhs (axes : ContractionAxes) (lhsRank rhsRank : Nat) (a ct : ValueId) :
    Preserves P (contractRhs axes lhsRank rhsRank a ct) :=
  (preserves_contract hP _ a ct).bind fun product => preserves_arrange hP product _

theorem preserves_emit (operand : ValueId) {contribution : Recording ValueId}
    (h : Preserves P contribution) : Preserves P (x.emit operand contribution) := by
  unfold emit
  split
  · exact h.bind fun c => (preserves_unbroadcast hP c _).bind fun c' => preserves_pure _
  · exact preserves_pure []

/-- What an operation with two operands gives both of them. -/
theorem preserves_emit_two (a b : ValueId) {l r : Recording ValueId} (hl : Preserves P l)
    (hr : Preserves P r) : Preserves P (do
      let first ← x.emit a l
      let second ← x.emit b r
      return first ++ second : Differentiating (List (ValueId × ValueId))).run :=
  (preserves_emit hP x a hl).lift.run_bind fun _ => (preserves_emit hP x b hr).lift.run_bind
    fun _ => preserves_run_pure _

theorem preserves_contributions (op : Operation) (operands : List ValueId) (out ct : ValueId) :
    Preserves P (x.contributions op operands out ct).run := by
  cases op with
  | arith op =>
    exact preserves_emit_two hP x _ _ (preserves_lhsContribution hP x op _ _ ct)
      (preserves_rhsContribution hP x op _ _ out ct)
  | accumulate => exact preserves_emit_two hP x _ _ (preserves_pure ct) (preserves_pure ct)
  | neg => exact (preserves_emit hP x _ (preserves_neg hP ct)).lift
  | call f => exact (preserves_emit hP x _ (preserves_callContribution hP x f _ out ct)).lift
  | indicator c => exact preserves_run_pure []
  | cast dtype => exact (preserves_emit hP x _ (preserves_pure ct)).lift
  | reshape => exact (preserves_emit hP x _ (preserves_reshape hP ct _)).lift
  | transpose permutation => exact (preserves_emit hP x _ (preserves_transpose hP ct _)).lift
  | broadcast dims =>
    exact (preserves_emit hP x _ (preserves_broadcastContribution hP _ dims _ ct)).lift
  | reduceSum axes => exact (preserves_emit hP x _ (preserves_pushShaped hP _ [ct] _)).lift
  | contract axes =>
    exact preserves_emit_two hP x _ _ (preserves_contractLhs hP axes _ _ _ ct)
      (preserves_contractRhs hP axes _ _ _ ct)
  | foreign name => exact preserves_throw _

theorem preserves_accumulate (cotangents : Derivatives) (target contribution : ValueId) :
    Preserves P (accumulate cotangents target contribution) := by
  unfold accumulate
  split
  · exact preserves_pure _
  · exact (preserves_elementwise hP .accumulate _ _).bind fun total => preserves_pure _

theorem preserves_seedOutput (cotangents : Derivatives) (o : ValueId) :
    Preserves P (x.seedOutput cotangents o) := by
  have hSeed : ∀ seed, Preserves P
      (if x.depends.contains o then accumulate cotangents o seed else pure cotangents) := by
    intro seed
    split
    · exact preserves_accumulate hP cotangents o seed
    · exact preserves_pure cotangents
  unfold seedOutput
  cases x.unit with
  | some unit => exact (preserves_tag hP .cotangent o unit).bind fun _ => hSeed unit
  | none => exact (preserves_derivativeInput hP .cotangent o).bind hSeed

theorem preserves_carryBack (bound : List ValueId) (cotangents : Derivatives) (v : ValueId) :
    Preserves P (x.carryBack bound cotangents v).run := by
  unfold carryBack
  split
  · rename_i ct op operands _ _
    have hGiven : Preserves P (do
        let given ← x.contributions op operands v ct
        accumulateAll cotangents given : Differentiating Derivatives).run :=
      (preserves_contributions hP x op operands v ct).run_bind fun given =>
        (preserves_foldlM (fun d (w : ValueId × ValueId) => preserves_accumulate hP d w.1 w.2) given
          cotangents).lift
    split
    · exact (preserves_tag hP .cotangent v ct).lift.run_bind fun _ => hGiven
    · exact hGiven
  · exact preserves_run_pure cotangents

theorem preserves_argumentCotangent (cotangents : Derivatives) (a : ValueId) :
    Preserves P (argumentCotangent cotangents a) := by
  have hTag : ∀ ct, Preserves P (do Recording.tag .cotangent a ct; return ct) := fun ct =>
    (preserves_tag hP .cotangent a ct).bind fun _ => preserves_pure ct
  unfold argumentCotangent
  split
  · exact (preserves_pure _).bind hTag
  · exact (preserves_literal hP 0).bind hTag

end Reverse

/-- **The reverse direction preserves a lasting property**, of any graph. -/
theorem preserves_recordReverse (g : Graph) (bound arguments outputs : List ValueId)
    (gradient : Bool) : Preserves P (recordReverse g bound arguments outputs gradient).run := by
  have hBack : ∀ unit : Option ValueId, Preserves P (do
      let x : Reverse := ⟨g, unit, dependents g arguments⟩
      let seeds ← x.seedOutputs outputs
      let cotangents ← g.ids.reverse.foldlM (x.carryBack bound) seeds
      Reverse.argumentCotangents cotangents arguments :
        Differentiating (List ValueId)).run := by
    intro unit
    let x : Reverse := ⟨g, unit, dependents g arguments⟩
    have hSeeds : Preserves P (x.seedOutputs outputs) :=
      preserves_foldlM (Reverse.preserves_seedOutput hP x) outputs _
    refine hSeeds.lift.run_bind fun seeds => ?_
    have hCarried := preserves_run_foldlM (Reverse.preserves_carryBack hP x bound) g.ids.reverse
    exact (hCarried seeds).run_bind fun cotangents =>
      (preserves_mapM (Reverse.preserves_argumentCotangent hP cotangents) arguments).lift
  -- A gradient begins with one seed for all outputs.
  cases gradient with
  | true => exact ((preserves_literal hP 1).map some).lift.run_bind hBack
  | false => exact hBack none

end Differentiation

/-! ## Scripts -/

namespace Script

variable {α : Type} {c : Context}

theorem preserves_failAt (span : Span) (e : TermError) :
    Preserves P (failAt span e : Evaluation α).run := preserves_throw _

theorem preserves_find (scope : Scope) (name : Identifier) : Preserves P (scope.find name).run := by
  unfold Scope.find
  split
  · exact preserves_run_pure _
  · exact preserves_failAt _ _

theorem preserves_axisOf (t : Term) : Preserves P (axisOf t).run := by
  unfold axisOf
  split
  · split
    · exact preserves_run_pure _
    · exact preserves_failAt _ _
  · exact preserves_failAt _ _

theorem preserves_dimsOf (t : Term) : Preserves P (dimsOf t).run := by
  unfold dimsOf
  split
  · exact preserves_run_pure _
  · exact preserves_failAt _ _

theorem preserves_checkCall (d : Definition) (span : Span) (given : Nat) :
    Preserves P (c.checkCall d span given).run := by
  unfold Context.checkCall
  have hCount : Preserves P (if given ≠ d.parameters.length then
      failAt span (.argumentCount d.name.name d.parameters.length given) else pure () :
        Evaluation Unit).run := by
    split
    · exact preserves_failAt _ _
    · exact preserves_run_pure ()
  dsimp only
  split
  · exact (preserves_failAt _ _).run_bind fun _ => hCount
  · exact hCount

/-- The bodies of functions preserve the property. -/
def Context.Preserves (P : Recorder → Prop) (c : Context) : Prop :=
  ∀ d vs, Recording.Preserves P (c.inline d vs).run

theorem preserves_callFunction (hc : c.Preserves P) (d : Definition)
    (span : Span) (arguments : List ValueId) :
    Preserves P (c.callFunction d span arguments).run := by
  refine (hc d arguments).run_bind fun results => ?_
  split
  · exact preserves_run_pure _
  · exact preserves_failAt _ _

section Terms

variable (hP : Recorder.Lasting P)
include hP

theorem preserves_recordBinary (op : BinaryOp) (a b : ValueId) :
    Preserves P (recordBinary op a b) := by
  cases op with
  | arith op => exact preserves_arith hP op a b
  | matmul => exact preserves_matmul hP a b
  | compare c => exact preserves_elementwise hP _ a b

theorem preserves_recordBuiltin (b : Builtin) (v : ValueId) (others : List Term) :
    Preserves P (recordBuiltin b v others).run := by
  unfold recordBuiltin
  split
  · exact (preserves_call hP _ v).lift
  · exact (preserves_cast hP v _).lift
  · exact (preserves_sumAll hP v).lift
  · exact (preserves_run_mapM preserves_axisOf _).run_bind fun axes =>
      (preserves_sum hP v axes).lift
  · exact (preserves_dimsOf _).run_bind fun dims => (preserves_transpose hP v dims).lift
  · exact (preserves_transposeAll hP v).lift
  · exact (preserves_dimsOf _).run_bind fun dims => (preserves_reshape hP v dims).lift
  · exact (preserves_dimsOf _).run_bind fun dims => (preserves_broadcastTo hP v dims).lift
  · exact preserves_run_pure v
  · exact preserves_run_pure v

theorem preserves_namedTerm (scope : Scope) (v : ValueId) (name : Identifier)
    (dependsOn : Option (List Identifier)) : Preserves P (do
      let dependencies ← dependsOn.mapM fun names => names.mapM scope.find
      Recording.named v name.name dependencies : Evaluation ValueId).run := by
  refine Preserves.run_bind ?_ fun dependencies =>
    (preserves_named hP v name.name dependencies).lift
  cases dependsOn with
  | none => exact preserves_run_pure none
  | some names =>
    exact (preserves_run_mapM (preserves_find scope) names).run_bind fun vs =>
      preserves_run_pure (some vs)

end Terms

mutual

/-- The evaluation of a term, where the bodies of functions preserve the property. -/
theorem preserves_evaluate (hP : Recorder.Lasting P) (hc : c.Preserves P) (scope : Scope)
    (t : Term) : Preserves P (evaluate c scope t).run := by
  cases t with
  | number span x => exact (preserves_literal hP x).lift
  | dims span ns => exact preserves_failAt _ _
  | var name => exact preserves_find scope name
  | neg span operand =>
    rw [evaluate]
    exact (preserves_evaluate hP hc scope operand).run_bind fun a => (preserves_neg hP a).lift
  | binary span op lhs rhs =>
    rw [evaluate]
    exact (preserves_evaluate hP hc scope lhs).run_bind fun a =>
      (preserves_evaluate hP hc scope rhs).run_bind fun b => (preserves_recordBinary hP op a b).lift
  | named span value name dependsOn =>
    rw [evaluate]
    exact (preserves_evaluate hP hc scope value).run_bind fun v =>
      preserves_namedTerm hP scope v name dependsOn
  | call span callee arguments =>
    rw [evaluate]
    -- The name is looked up among the functions, then among the built-in calls; any other name is
    -- that of a primitive.
    split
    · exact (preserves_checkCall _ _ _).run_bind fun _ =>
        (preserves_evaluateEach hP hc scope arguments).run_bind fun vs =>
          preserves_callFunction hc _ _ vs
    · split
      · split
        · cases arguments with
          | nil => exact preserves_failAt _ _
          | cons first others =>
            exact (preserves_evaluate hP hc scope first).run_bind fun v =>
              preserves_recordBuiltin hP _ v others
        · exact preserves_failAt _ _
      · exact (preserves_evaluateEach hP hc scope arguments).run_bind fun vs =>
          (preserves_primitive hP callee.name vs).lift

theorem preserves_evaluateEach (hP : Recorder.Lasting P) (hc : c.Preserves P) (scope : Scope)
    (ts : List Term) : Preserves P (evaluateEach c scope ts).run := by
  cases ts with
  | nil => exact preserves_run_pure []
  | cons t ts =>
    rw [evaluateEach]
    exact (preserves_evaluate hP hc scope t).run_bind fun v =>
      (preserves_evaluateEach hP hc scope ts).run_bind fun vs => preserves_run_pure (v :: vs)

end

theorem preserves_runStatements (hP : Recorder.Lasting P) (hc : c.Preserves P) (scope : Scope)
    (rest : List Statement) : Preserves P (runStatements c scope rest).run := by
  induction rest generalizing scope with
  | nil => exact preserves_run_pure none
  | cons statement rest ih =>
    cases statement with
    | bind span name value =>
      rw [runStatements]
      exact (preserves_evaluate hP hc scope value).run_bind fun v => ih ((name.name, v) :: scope)
    | result span values =>
      rw [runStatements, map_eq_pure_bind]
      exact (preserves_evaluateEach hP hc scope values).run_bind fun vs =>
        preserves_run_pure (some vs)

theorem preserves_runBody (hP : Recorder.Lasting P) (definitions : List Definition) (fuel : Nat)
    (stack : List String) (d : Definition) (arguments : List ValueId) :
    Preserves P (runBody definitions fuel stack d arguments).run := by
  -- The bodies of functions that are called have less fuel.
  induction fuel generalizing stack d arguments with
  | zero => exact preserves_failAt _ _
  | succ fuel ih =>
    rw [runBody]
    refine (preserves_runStatements hP (fun d' vs => ih _ d' vs) _ _).run_bind fun values => ?_
    cases values with
    | some vs => exact preserves_run_pure vs
    | none => exact preserves_failAt _ _

/-- **The evaluation of a function of a script preserves a lasting property.** -/
theorem preserves_record (hP : Recorder.Lasting P) (s : Script) (d : Definition)
    (shapes : List Shape) : Preserves P (s.record d shapes).run := by
  have hArguments : ∀ x : String × Shape,
      Preserves P (liftM (Recording.argument x.2 (some x.1)) : Evaluation ValueId).run := fun x =>
    (preserves_addArgument hP x.2 (some x.1) false).lift
  exact (preserves_run_mapM hArguments _).run_bind fun arguments =>
    preserves_runBody hP s.definitions _ [] d arguments

end Script

end ArrayEquations
