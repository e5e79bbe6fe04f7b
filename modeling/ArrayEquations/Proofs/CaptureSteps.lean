import ArrayEquations.Script.Capture
import Mathlib.Data.List.Perm.Subperm
import Mathlib.Logic.Relation

/-!
# ArrayEquations — capturing, step by step

The body of a function is recorded step after step: an operand is entered, its value is taken up by
what waits for it, a call opens another body. Here these steps are those of a machine. It knows what
it is at, what waits behind that, innermost first, which calls are open, and the recorder. Nothing
bounds its steps; a step is taken as long as there is one.

A failure of the evaluation leaves whatever waits, one after the other, and closes the calls that it
leaves. A failure of the recording is kept in the recorder, and the machine goes on.

## Main definitions

* `CaptureState` — the state of the machine, with `Focus` and `Frame`.
* `CaptureState.start` — the state in which a capture begins.
* `Script.step?` — the step from a state, if there is one.
* `Script.Reaches` — a state comes after another.

## Main results

* `reaches_evaluate` — the steps from a term to its value, or to its failure.
* `reaches_runBody` — the steps through a body; no bound on open calls is ever met, for the calls
  that are open are of distinct functions.
* `reaches_capture` — the machine ends with the outcome of the capture.
-/

namespace ArrayEquations.Script

/-! ## States -/

/-- What the values of a row of terms are for. -/
inductive RowUse where
  /-- The arguments of a call of a function of the script. -/
  | call (d : Definition) (span : Span)
  /-- The operands of a primitive. -/
  | primitive (name : String)
  /-- What a body returns. -/
  | result

/-- What waits for a value, or for the values of a body. -/
inductive Frame where
  | neg
  /-- The right operand is to be entered. -/
  | rhs (op : BinaryOp) (scope : Scope) (rhs : Term)
  /-- The left operand has its value. -/
  | binary (op : BinaryOp) (lhs : ValueId)
  | named (scope : Scope) (name : Identifier) (dependsOn : Option (List Identifier))
  | builtin (b : Builtin) (others : List Term)
  /-- A term in a row, between those that have their values and the rest. -/
  | item (use : RowUse) (scope : Scope) (done : List ValueId) (rest : List Term)
  /-- The rest of a body, for which the value gets a name. -/
  | bind (d : Definition) (scope : Scope) (name : String) (rest : List Statement)
  /-- An open call. -/
  | call (d : Definition) (span : Span)
  /-- The function that is captured. -/
  | entry (name : String)

/-- What the machine is at. -/
inductive Focus where
  | term (scope : Scope) (t : Term)
  /-- A row of terms, of which some have their values. -/
  | row (use : RowUse) (scope : Scope) (done : List ValueId) (rest : List Term)
  /-- The rest of a body. -/
  | body (d : Definition) (scope : Scope) (rest : List Statement)
  | value (v : ValueId)
  /-- The values of a body. -/
  | returned (vs : List ValueId)
  | failed (e : CaptureError)
  | closed (t : Trace)

/-- A state of a capture. -/
structure CaptureState where
  focus : Focus
  /-- What waits, innermost first. -/
  frames : List Frame
  /-- The functions whose calls are open, innermost first. -/
  stack : List String
  recorder : Recorder

/-- The function whose body is inside a frame. -/
def Frame.opened? : Frame → Option String
  | .call d _ => some d.name.name
  | .entry name => some name
  | _ => none

/-- What an action makes of a recorder. -/
def outcomeOf {α : Type} (action : Evaluation α) (r : Recorder) :
    Except CaptureError α × Recorder := action.run.run r

/-- Records the arguments of a function. -/
def recordArguments (d : Definition) (shapes : List Shape) : Recording (List ValueId) :=
  (d.parameterNames.zip shapes).mapM fun x => Recording.argument x.2 (some x.1)

namespace CaptureState

/-- An action has ended with a value, or failed. -/
def ended (frames : List Frame) (stack : List String) :
    Except CaptureError ValueId × Recorder → CaptureState
  | (.ok v, r) => ⟨.value v, frames, stack, r⟩
  | (.error e, r) => ⟨.failed e, frames, stack, r⟩

/-- A body has ended with its values, or failed. -/
def left (frames : List Frame) (stack : List String) :
    Except CaptureError (List ValueId) × Recorder → CaptureState
  | (.ok vs, r) => ⟨.returned vs, frames, stack, r⟩
  | (.error e, r) => ⟨.failed e, frames, stack, r⟩

/-- The capture has ended with a trace, or failed. -/
def closing (frames : List Frame) (stack : List String) (r : Recorder) :
    Except RecordingError Trace → CaptureState
  | .ok t => ⟨.closed t, frames, stack, r⟩
  | .error e => ⟨.failed (.recording e), frames, stack, r⟩

/-- Performs an action in one step. -/
def perform (st : CaptureState) (action : Evaluation ValueId) : CaptureState :=
  ended st.frames st.stack (outcomeOf action st.recorder)

/-- Enters something that a frame waits for. -/
def await (st : CaptureState) (frame : Frame) (focus : Focus) : CaptureState :=
  { st with focus := focus, frames := frame :: st.frames }

/-- The outcome of a capture that has ended. -/
def outcome? (st : CaptureState) : Option (Except CaptureError Trace) :=
  match st.focus, st.frames with
  | .closed t, [] => some (.ok t)
  | .failed e, [] => some (.error e)
  | _, _ => none

/-- The state in which the capture of a function begins. Its arguments are recorded, if there are
as many shapes as it has parameters. -/
def start (d : Definition) (shapes : List Shape) : CaptureState :=
  if shapes.length ≠ d.parameters.length then
    ⟨.failed (.exampleCount d.name.name d.parameters.length shapes.length), [], [],
      Recorder.empty⟩
  else
    let recorded := (recordArguments d shapes).run Recorder.empty
    ⟨.body d (d.parameterNames.zip recorded.1) d.body, [.entry d.name.name], [d.name.name],
      recorded.2⟩

end CaptureState

/-! ## Steps -/

open CaptureState

section

variable (s : Script) (st : CaptureState)

/-- Enters a term. -/
def enter (scope : Scope) : Term → CaptureState
  | .number _ x => st.perform (Recording.literal x)
  | .dims span _ => st.perform (failAt span .misplacedDims)
  | .var name => st.perform (scope.find name)
  | .neg _ operand => st.await .neg (.term scope operand)
  | .binary _ op lhs rhs => st.await (.rhs op scope rhs) (.term scope lhs)
  | .named _ value name dependsOn =>
    st.await (.named scope name dependsOn) (.term scope value)
  | .call _ callee arguments =>
    match s.definitions.find? (·.name.name == callee.name) with
    | some d =>
      if st.stack.contains d.name.name then
        st.perform (failAt callee.span (.recursiveCall d.name.name))
      else if arguments.length ≠ d.parameters.length then
        st.perform (failAt callee.span
          (.argumentCount d.name.name d.parameters.length arguments.length))
      else { st with focus := .row (.call d callee.span) scope [] arguments }
    | none =>
      match Builtin.ofName? callee.name with
      | some b =>
        if b.takes arguments.length then
          match arguments with
          | [] => st.perform (failAt callee.span (.usage b))
          | first :: others => st.await (.builtin b others) (.term scope first)
        else st.perform (failAt callee.span (.usage b))
      | none => { st with focus := .row (.primitive callee.name) scope [] arguments }

/-- Uses the values of a row. -/
def useRow (done : List ValueId) : RowUse → CaptureState
  | .call d span =>
    { st with
      focus := .body d (d.parameterNames.zip done) d.body
      frames := .call d span :: st.frames
      stack := d.name.name :: st.stack }
  | .primitive name => st.perform (Recording.primitive name done)
  | .result => { st with focus := .returned done }

/-- Enters the next statement of a body. -/
def nextStatement (d : Definition) (scope : Scope) : List Statement → CaptureState
  | [] => st.perform (failAt d.span (.noResult d.name.name))
  | .bind _ name value :: rest => st.await (.bind d scope name.name rest) (.term scope value)
  | .result _ values :: _ => { st with focus := .row .result scope [] values }

/-- Hands a value to the frame that waits for it. -/
def take (v : ValueId) : Frame → Option CaptureState
  | .neg => some (st.perform (Recording.neg v))
  | .rhs op scope rhs => some (st.await (.binary op v) (.term scope rhs))
  | .binary op lhs => some (st.perform (recordBinary op lhs v))
  | .named scope name dependsOn => some <| st.perform do
    let dependencies ← dependsOn.mapM fun names => names.mapM scope.find
    Recording.named v name.name dependencies
  | .builtin b others => some (st.perform (recordBuiltin b v others))
  | .item use scope done rest => some { st with focus := .row use scope (done ++ [v]) rest }
  | .bind d scope name rest => some { st with focus := .body d ((name, v) :: scope) rest }
  | .call _ _ | .entry _ => none

/-- Hands the values of a body to the frame that waits for them, and closes the call. -/
def takeResult (vs : List ValueId) : Frame → Option CaptureState
  | .call d span => some <| { st with stack := st.stack.tail }.perform <|
    match vs with
    | [v] => return v
    | vs => failAt span (.valueCount d.name.name vs.length)
  | .entry name => some (closing st.frames st.stack.tail st.recorder (st.recorder.finish name vs))
  | _ => none

/-- The step from a state, if there is one. -/
def step? : Option CaptureState :=
  match st.focus, st.frames with
  | .term scope t, _ => some (s.enter st scope t)
  | .row use scope done (t :: rest), _ =>
    some (st.await (.item use scope done rest) (.term scope t))
  | .row use _ done [], _ => some (useRow st done use)
  | .body d scope rest, _ => some (nextStatement st d scope rest)
  | .value v, frame :: frames => take { st with frames := frames } v frame
  | .returned vs, frame :: frames => takeResult { st with frames := frames } vs frame
  -- A failure leaves the frame, and the call if it is one.
  | .failed _, frame :: frames =>
    some { st with
      frames := frames
      stack := if frame.opened?.isSome then st.stack.tail else st.stack }
  | .value _, [] | .returned _, [] | .failed _, [] | .closed _, _ => none

end

/-- The second state comes after the first one, at once or after steps. -/
def Reaches (s : Script) : CaptureState → CaptureState → Prop :=
  Relation.ReflTransGen fun st st' => s.step? st = some st'

/-! ## Outcomes of actions -/

theorem outcomeOf_bind {α β : Type} (x : Evaluation α) (f : α → Evaluation β) (r : Recorder) :
    outcomeOf (x >>= f) r =
      match outcomeOf x r with
      | (.ok a, r') => outcomeOf (f a) r'
      | (.error e, r') => (.error e, r') := by
  unfold outcomeOf
  rw [ExceptT.run_bind, StateT.run_bind]
  rcases StateT.run (ExceptT.run x) r with ⟨_ | _, _⟩ <;> rfl

theorem outcomeOf_lift {α : Type} (x : Recording α) (r : Recorder) :
    outcomeOf (x : Evaluation α) r = (.ok (x.run r).1, (x.run r).2) := rfl

theorem outcomeOf_ok {α β : Type} {x : Evaluation α} {f : α → Evaluation β} {r r' : Recorder}
    {a : α} (h : outcomeOf x r = (.ok a, r')) : outcomeOf (x >>= f) r = outcomeOf (f a) r' := by
  rw [outcomeOf_bind, h]

theorem outcomeOf_error {α β : Type} {x : Evaluation α} {f : α → Evaluation β} {r r' : Recorder}
    {e : CaptureError} (h : outcomeOf x r = (.error e, r')) :
    outcomeOf (x >>= f) r = (.error e, r') := by
  rw [outcomeOf_bind, h]

/-! ## Chains of steps -/

namespace Reaches

variable {s : Script} {st st' : CaptureState}

theorem refl (s : Script) (st : CaptureState) : s.Reaches st st := Relation.ReflTransGen.refl

theorem step (h : s.step? st = some st') : s.Reaches st st' := Relation.ReflTransGen.single h

theorem trans {st'' : CaptureState} (h : s.Reaches st st') (h' : s.Reaches st' st'') :
    s.Reaches st st'' := Relation.ReflTransGen.trans h h'

theorem head {st'' : CaptureState} (h : s.step? st = some st') (h' : s.Reaches st' st'') :
    s.Reaches st st'' := Relation.ReflTransGen.head h h'

end Reaches

/-! ## The steps of an evaluation -/

section Correspondence

variable {s : Script} {c : Context} {st : CaptureState} {frame : Frame} {frames : List Frame}
  {stack : List String} {r : Recorder}

/-- What a row of terms has become when all of them have their values, or one has failed. -/
def CaptureState.rowed (use : RowUse) (scope : Scope) (done : List ValueId) (frames : List Frame)
    (stack : List String) : Except CaptureError (List ValueId) × Recorder → CaptureState
  | (.ok vs, r) => ⟨.row use scope (done ++ vs) [], frames, stack, r⟩
  | (.error e, r) => ⟨.failed e, frames, stack, r⟩

/-- Calls are inlined in the context as the machine enters them. -/
structure Context.Follows (c : Context) (s : Script) : Prop where
  definitions : c.definitions = s.definitions
  inline : ∀ d ∈ s.definitions, d.name.name ∉ c.stack → ∀ vs frames r,
    s.Reaches ⟨.body d (d.parameterNames.zip vs) d.body, frames, d.name.name :: c.stack, r⟩
      (left frames (d.name.name :: c.stack) (outcomeOf (c.inline d vs) r))

/-- A failure leaves a frame that is no call. -/
theorem reaches_of_failed (hFrame : frame.opened? = none) (e : CaptureError) :
    s.Reaches ⟨.failed e, frame :: frames, stack, r⟩ ⟨.failed e, frames, stack, r⟩ := by
  refine .step ?_
  simp only [step?, hFrame]
  rfl

/-- An action is followed by another one that a frame holds back. -/
theorem reaches_bind {x : Evaluation ValueId} {g : ValueId → Evaluation ValueId}
    (hFrame : frame.opened? = none)
    (hFirst : s.Reaches st (ended (frame :: frames) stack (outcomeOf x r)))
    (hRest : ∀ v r', s.Reaches ⟨.value v, frame :: frames, stack, r'⟩
      (ended frames stack (outcomeOf (g v) r'))) :
    s.Reaches st (ended frames stack (outcomeOf (x >>= g) r)) := by
  rw [outcomeOf_bind]
  rcases h : outcomeOf x r with ⟨e | v, r'⟩ <;> rw [h] at hFirst
  · exact hFirst.trans (reaches_of_failed hFrame e)
  · exact hFirst.trans (hRest v r')

/-- A row of terms is followed by an action on their values. -/
theorem reaches_bind_row {use : RowUse} {scope : Scope} {x : Evaluation (List ValueId)}
    {g : List ValueId → Evaluation ValueId}
    (hFirst : s.Reaches st (rowed use scope [] frames stack (outcomeOf x r)))
    (hRest : ∀ vs r', s.Reaches ⟨.row use scope vs [], frames, stack, r'⟩
      (ended frames stack (outcomeOf (g vs) r'))) :
    s.Reaches st (ended frames stack (outcomeOf (x >>= g) r)) := by
  rw [outcomeOf_bind]
  rcases h : outcomeOf x r with ⟨e | vs, r'⟩ <;> rw [h] at hFirst
  · exact hFirst
  · exact hFirst.trans (hRest vs r')

/-- A call on the values of its arguments goes into the body of the function and comes back. -/
theorem reaches_callFunction (hc : c.Follows s) {d : Definition} (hd : d ∈ s.definitions)
    (hFree : d.name.name ∉ c.stack) (span : Span) (scope : Scope) (vs : List ValueId) :
    s.Reaches ⟨.row (.call d span) scope vs [], frames, c.stack, r⟩
      (ended frames c.stack (outcomeOf (c.callFunction d span vs) r)) := by
  refine .head rfl ?_
  have hBody := hc.inline d hd hFree vs (.call d span :: frames) r
  unfold Context.callFunction
  rw [outcomeOf_bind]
  rcases h : outcomeOf (c.inline d vs) r with ⟨e | results, r'⟩ <;> rw [h] at hBody
  · exact hBody.trans (.step rfl)
  · exact hBody.trans (.step rfl)

mutual

theorem reaches_evaluate (hc : c.Follows s) (scope : Scope) (t : Term) (frames : List Frame)
    (r : Recorder) :
    s.Reaches ⟨.term scope t, frames, c.stack, r⟩
      (ended frames c.stack (outcomeOf (evaluate c scope t) r)) := by
  cases t with
  | number span x => exact .step rfl
  | dims span ns => exact .step rfl
  | var name => exact .step rfl
  | neg span operand =>
    rw [evaluate]
    exact reaches_bind rfl (.head rfl (reaches_evaluate hc scope operand (.neg :: frames) r))
      fun v r' => .step rfl
  | binary span op lhs rhs =>
    rw [evaluate]
    refine reaches_bind rfl (.head rfl (reaches_evaluate hc scope lhs _ r)) fun a r' => ?_
    exact reaches_bind rfl (.head rfl (reaches_evaluate hc scope rhs _ r')) fun b r'' => .step rfl
  | named span value name dependsOn =>
    rw [evaluate]
    exact reaches_bind rfl (.head rfl (reaches_evaluate hc scope value _ r)) fun v r' => .step rfl
  | call span callee arguments =>
    rw [evaluate, hc.definitions]
    -- The machine enters a call as the evaluation does; what it enters depends on the callee.
    have hEnter : s.Reaches ⟨.term scope (.call span callee arguments), frames, c.stack, r⟩
        (s.enter ⟨.term scope (.call span callee arguments), frames, c.stack, r⟩ scope
          (.call span callee arguments)) := .step rfl
    refine hEnter.trans ?_
    rw [enter]
    cases hFind : s.definitions.find? (·.name.name == callee.name) with
    | some d =>
      dsimp only
      unfold Context.checkCall
      by_cases hOpen : c.stack.contains d.name.name
      · rw [if_pos hOpen, if_pos hOpen]
        exact .refl s _
      · rw [if_neg hOpen, if_neg hOpen]
        by_cases hCount : arguments.length ≠ d.parameters.length
        · rw [if_pos hCount, if_pos hCount]
          exact .refl s _
        · rw [if_neg hCount, if_neg hCount]
          have hMem := List.mem_of_find?_eq_some hFind
          have hFree : d.name.name ∉ c.stack := by simpa using hOpen
          exact reaches_bind_row (reaches_evaluateEach hc _ scope arguments [] frames r)
            fun vs r' => reaches_callFunction hc hMem hFree callee.span scope vs
    | none =>
      dsimp only
      cases Builtin.ofName? callee.name with
      | some b =>
        dsimp only
        by_cases hTakes : b.takes arguments.length
        · rw [if_pos hTakes, if_pos hTakes]
          cases arguments with
          | nil => exact .refl s _
          | cons first others =>
            exact reaches_bind rfl (reaches_evaluate hc scope first _ r) fun v r' => .step rfl
        · rw [if_neg hTakes, if_neg hTakes]
          exact .refl s _
      | none =>
        exact reaches_bind_row (reaches_evaluateEach hc _ scope arguments [] frames r)
          fun vs r' => .step rfl

theorem reaches_evaluateEach (hc : c.Follows s) (use : RowUse) (scope : Scope) (ts : List Term)
    (done : List ValueId) (frames : List Frame) (r : Recorder) :
    s.Reaches ⟨.row use scope done ts, frames, c.stack, r⟩
      (rowed use scope done frames c.stack (outcomeOf (evaluateEach c scope ts) r)) := by
  cases ts with
  | nil =>
    show s.Reaches _ ⟨.row use scope (done ++ []) [], frames, c.stack, r⟩
    rw [List.append_nil]
    exact .refl s _
  | cons t ts =>
    rw [evaluateEach]
    have hFirst : s.Reaches ⟨.row use scope done (t :: ts), frames, c.stack, r⟩ _ :=
      .head rfl (reaches_evaluate hc scope t (.item use scope done ts :: frames) r)
    rcases h : outcomeOf (evaluate c scope t) r with ⟨e | v, r'⟩ <;> rw [h] at hFirst
    · rw [outcomeOf_error h]
      exact hFirst.trans (reaches_of_failed rfl e)
    · rw [outcomeOf_ok h]
      -- The rest of the row goes on with this value behind those that are done.
      have hRest : s.Reaches ⟨.value v, .item use scope done ts :: frames, c.stack, r'⟩ _ :=
        .head rfl (reaches_evaluateEach hc use scope ts (done ++ [v]) frames r')
      rcases h' : outcomeOf (evaluateEach c scope ts) r' with ⟨e | vs, r''⟩ <;> rw [h'] at hRest
      · rw [outcomeOf_error h']
        exact hFirst.trans hRest
      · rw [outcomeOf_ok h']
        rw [rowed, List.append_assoc] at hRest
        exact hFirst.trans hRest

end

/-- Fails where a body has ended without values. -/
def valuesOf (d : Definition) : Option (List ValueId) → Evaluation (List ValueId)
  | some vs => return vs
  | none => failAt d.span (.noResult d.name.name)

/-- The steps through a body. -/
theorem reaches_runStatements (hc : c.Follows s) (d : Definition) (rest : List Statement)
    (scope : Scope) (frames : List Frame) (r : Recorder) :
    s.Reaches ⟨.body d scope rest, frames, c.stack, r⟩
      (left frames c.stack (outcomeOf (runStatements c scope rest >>= valuesOf d) r)) := by
  induction rest generalizing scope r with
  | nil => exact .step rfl
  | cons statement rest ih =>
    cases statement with
    | bind span name value =>
      rw [runStatements]
      -- The machine first reaches the end of the term, with the rest of the body on top of its
      -- frames.
      have hValue : s.Reaches ⟨.body d scope (.bind span name value :: rest), frames, c.stack, r⟩
          _ :=
        .head rfl (reaches_evaluate hc scope value (.bind d scope name.name rest :: frames) r)
      rcases h : outcomeOf (evaluate c scope value) r with ⟨e | v, r'⟩ <;> rw [h] at hValue
      · rw [outcomeOf_error (outcomeOf_error h)]
        exact hValue.trans (reaches_of_failed rfl e)
      · rw [bind_assoc, outcomeOf_ok h]
        exact hValue.trans (.head rfl (ih ((name.name, v) :: scope) r'))
    | result span values =>
      rw [runStatements]
      have hValues : s.Reaches ⟨.body d scope (.result span values :: rest), frames, c.stack, r⟩
          _ := .head rfl (reaches_evaluateEach hc .result scope values [] frames r)
      rw [map_eq_pure_bind, bind_assoc]
      rcases h : outcomeOf (evaluateEach c scope values) r with ⟨e | vs, r'⟩ <;> rw [h] at hValues
      · rw [outcomeOf_error h]
        exact hValues
      · rw [outcomeOf_ok h]
        exact hValues.trans (.step rfl)

/-- Distinct functions of the script, as many as can be open at a time. -/
structure OpenCalls (s : Script) (stack : List String) : Prop where
  nodup : stack.Nodup
  function : ∀ name ∈ stack, name ∈ s.definitions.map (·.name.name)

theorem OpenCalls.length_le {stack : List String} (h : s.OpenCalls stack) :
    stack.length ≤ s.definitions.length := by
  have hLe := (h.nodup.subperm h.function).length_le
  rwa [List.length_map] at hLe

theorem OpenCalls.cons {stack : List String} (h : s.OpenCalls stack) {d : Definition}
    (hd : d ∈ s.definitions) (hFree : d.name.name ∉ stack) :
    s.OpenCalls (d.name.name :: stack) where
  nodup := List.nodup_cons.mpr ⟨hFree, h.nodup⟩
  function := List.forall_mem_cons.mpr ⟨List.mem_map.mpr ⟨d, hd, rfl⟩, h.function⟩

/-- **The bound on open calls is never met**: where all functions of the script are open, no other
one can be called. -/
theorem reaches_runBody {fuel : Nat} {d : Definition} (hd : d ∈ s.definitions)
    (hOpen : s.OpenCalls stack) (hFree : d.name.name ∉ stack)
    (hFuel : s.definitions.length ≤ fuel + stack.length) (vs : List ValueId) (frames : List Frame)
    (r : Recorder) :
    s.Reaches ⟨.body d (d.parameterNames.zip vs) d.body, frames, d.name.name :: stack, r⟩
      (left frames (d.name.name :: stack)
        (outcomeOf (runBody s.definitions fuel stack d vs) r)) := by
  induction fuel generalizing stack d vs frames r with
  | zero =>
    -- All functions would be open, and this one besides.
    have hLength := (hOpen.cons hd hFree).length_le
    rw [List.length_cons] at hLength
    omega
  | succ fuel ih =>
    let c : Context := ⟨s.definitions, d.name.name :: stack,
      runBody s.definitions fuel (d.name.name :: stack)⟩
    -- A call in the body has one less of the bound left, and one more function is open.
    have hc : c.Follows s := by
      refine ⟨rfl, fun d' hd' hFree' vs frames r => ?_⟩
      refine ih hd' (hOpen.cons hd hFree) hFree' ?_ vs frames r
      rw [List.length_cons]
      omega
    exact reaches_runStatements hc d d.body (d.parameterNames.zip vs) frames r

end Correspondence

/-! ## Whole captures -/

variable {s : Script} {d : Definition} {shapes : List Shape}

/-- Recording alone never fails. -/
theorem outcomeOf_mapM_lift {α β : Type} (f : α → Recording β) (as : List α) (r : Recorder) :
    outcomeOf (as.mapM fun a => (f a : Evaluation β)) r =
      (.ok ((as.mapM f).run r).1, ((as.mapM f).run r).2) := by
  induction as generalizing r with
  | nil => rfl
  | cons a as ih =>
    rw [List.mapM_cons, List.mapM_cons, outcomeOf_ok (outcomeOf_lift (f a) r), outcomeOf_ok (ih _)]
    rfl

/-- The steps from the arguments of the captured function to its values, or to a failure. -/
theorem reaches_entry (hd : d ∈ s.definitions) (vs : List ValueId) (r : Recorder) :
    s.Reaches ⟨.body d (d.parameterNames.zip vs) d.body, [.entry d.name.name], [d.name.name], r⟩
      (left [.entry d.name.name] [d.name.name]
        (outcomeOf (runBody s.definitions s.definitions.length [] d vs) r)) :=
  reaches_runBody hd ⟨List.nodup_nil, by simp⟩ List.not_mem_nil (Nat.le_add_right _ _) vs _ r

/-- **The steps of a capture**: they lead from the start to the outcome of the capture. -/
theorem reaches_capture (hd : d ∈ s.definitions) (shapes : List Shape) :
    ∃ last, s.Reaches (start d shapes) last ∧ last.outcome? = some (s.capture d shapes) := by
  unfold start capture
  by_cases hCount : shapes.length ≠ d.parameters.length
  · rw [if_pos hCount, if_pos hCount]
    exact ⟨_, .refl s _, rfl⟩
  · rw [if_neg hCount, if_neg hCount]
    -- The arguments are recorded before the first step.
    have hRecord : outcomeOf (s.record d shapes) Recorder.empty =
        outcomeOf (runBody s.definitions s.definitions.length [] d
          ((recordArguments d shapes).run Recorder.empty).1)
          ((recordArguments d shapes).run Recorder.empty).2 :=
      outcomeOf_ok (outcomeOf_mapM_lift _ _ Recorder.empty)
    have hBody := reaches_entry hd ((recordArguments d shapes).run Recorder.empty).1
      ((recordArguments d shapes).run Recorder.empty).2
    rw [← hRecord] at hBody
    unfold outcomeOf at hBody
    rcases h : (s.record d shapes).run.run Recorder.empty with ⟨e | outputs, r'⟩ <;> rw [h] at hBody
    · exact ⟨_, hBody.trans (.step rfl), rfl⟩
    · refine ⟨_, hBody.trans (.step rfl), ?_⟩
      show (closing [] _ r' (r'.finish d.name.name outputs)).outcome? =
        some ((r'.finish d.name.name outputs).mapError .recording)
      cases r'.finish d.name.name outputs <;> rfl

end ArrayEquations.Script
