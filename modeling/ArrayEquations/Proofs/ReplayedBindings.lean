import ArrayEquations.Proofs.Extension
import ArrayEquations.Proofs.LastingProperties
import ArrayEquations.Proofs.RenamedScripts
import Mathlib.Data.Finset.Dedup

/-!
# ArrayEquations — replaying the names of a trace

Names are given by one call of a binder after the other, and what a call may depend on is settled by
the calls before it. A call goes through its checks one by one. Then it draws a number, marks the
value as named and writes the binding down. Where it stops, all that it has changed so far stays
changed; so that a refused call changes nothing is a fact about the order of these steps.

The bindings that a binder holds determine it. So they can be collected anew, which is how a
recording goes on from a trace.

## Main definitions

* `Binder` — the names given so far, with what is remembered of them.
* `Binder.bind` — the call for one name, and `Binder.attempt` for several, whatever becomes of each.
* `Binder.replay` — collects bindings anew.
* `Binder.holding` — the binder that holds the bindings given.
* `Trace.Returned` — a recording was closed with the trace, or it was imported.

## Main results

* `Binder.perform_bind` — a call is refused and changes nothing, or adds one binding.
* `Binder.attempt_holding` — several calls add the bindings of those that are accepted.
* `Trace.Returned.resumed` — a trace can be resumed and closed again.
* `Binder.replay_reproduces` — all of this together.
-/

namespace ArrayEquations

/-! ## Binders -/

/-- What a binder is asked for: a name for a value. -/
structure NameRequest where
  value : ValueId
  name : String
  /-- The values it is said to depend on; none if nothing is said. -/
  dependsOn : Option (List ValueId)
  deriving DecidableEq, Repr

/-- The binding that a request becomes. -/
def NameRequest.numbered (n : NameRequest) (id : Nat) : Binding :=
  ⟨id, n.name, n.value, n.dependsOn⟩

/-- The bindings that requests become, numbered from a first number on. -/
def NameRequest.numberedFrom (first : Nat) (ns : List NameRequest) : List Binding :=
  (ns.zipIdx first).map fun x => x.1.numbered x.2

/-- What has been asked for. -/
def Binding.request (b : Binding) : NameRequest := ⟨b.value, b.name, b.dependsOn⟩

/-- The names given so far, the values that have one, and the next number. -/
structure Binder where
  bindings : List Binding
  named : Finset ValueId
  next : Nat
  deriving DecidableEq

/-- A call of a binder. If it throws, what it has changed so far stays changed. -/
abbrev BinderCall := ExceptT BindingError (StateM Binder)

namespace Binder

/-- The binder at the start. -/
def new : Binder := ⟨[], ∅, 0⟩

/-- Checks that a name may depend on a value. -/
def checkDependency (g : Graph) (name : String) (v : ValueId) : BinderCall Unit := do
  if !g.has v then throw (.unknownDependency name v)
  if !g.isLeaf v && v ∉ (← get).named then throw (.namelessDependency name v)

/-- Draws the next number. -/
def draw : BinderCall Nat := modifyGet fun b => (b.next, { b with next := b.next + 1 })

/-- Gives a name to a value of a graph, and yields the number of the binding. -/
def bind (g : Graph) (n : NameRequest) : BinderCall Nat := do
  if isBlankText n.name then throw .blankName
  if !g.has n.value then throw (.unknownValue n.name n.value)
  (n.dependsOn.getD []).forM (checkDependency g n.name)
  let id ← draw
  modify fun b => { b with named := insert n.value b.named }
  modify fun b => { b with bindings := b.bindings ++ [n.numbered id] }
  return id

/-- What a call yields, and the binder after it. -/
def perform {α : Type} (call : BinderCall α) (b : Binder) : Except BindingError α × Binder :=
  call.run.run b

/-- What several calls yield, one made after the other whatever becomes of each, and the binder
after them. -/
def attempt (g : Graph) (b : Binder) : List NameRequest → List (Except BindingError Nat) × Binder
  | [] => ([], b)
  | n :: ns =>
    let made := perform (bind g n) b
    let rest := attempt g made.2 ns
    (made.1 :: rest.1, rest.2)

/-- The requests that were accepted, by what the calls have yielded. -/
def accepted (ns : List NameRequest) (results : List (Except BindingError Nat)) :
    List NameRequest :=
  ((ns.zip results).filter fun x => x.2.isOk).map (·.1)

/-- The binder after a call, unless it is refused. -/
def after (g : Graph) (b : Binder) (n : NameRequest) : Except BindingError Binder :=
  match perform (bind g n) b with
  | (.ok _, b') => .ok b'
  | (.error e, _) => .error e

/-- Collects bindings anew; the first one that is refused ends it. -/
def replay (g : Graph) (bindings : List Binding) : Except BindingError Binder :=
  bindings.foldlM (fun b x => b.after g x.request) new

/-- The binder that holds the bindings given. -/
def holding (bindings : List Binding) : Binder :=
  ⟨bindings, (bindings.map (·.value)).toFinset, bindings.length⟩

/-! ## One call -/

variable {g : Graph} {α β : Type}

theorem perform_seq (x : BinderCall α) (f : α → BinderCall β) (b : Binder) :
    perform (x >>= f) b =
      match perform x b with
      | (.ok a, b') => perform (f a) b'
      | (.error e, b') => (.error e, b') := by
  unfold perform
  rw [ExceptT.run_bind, StateT.run_bind]
  rcases StateT.run (ExceptT.run x) b with ⟨_ | _, _⟩ <;> rfl

/-- What the check of a dependency comes to. It only reads the binder. -/
def admits (g : Graph) (b : Binder) (name : String) (v : ValueId) : Except BindingError Unit :=
  if !g.has v then .error (.unknownDependency name v)
  else if !g.isLeaf v && v ∉ b.named then .error (.namelessDependency name v)
  else .ok ()

/-- What all checks of a call come to. -/
def verdict (g : Graph) (b : Binder) (n : NameRequest) : Except BindingError Unit := do
  if isBlankText n.name then throw .blankName
  if !g.has n.value then throw (.unknownValue n.name n.value)
  (n.dependsOn.getD []).forM (b.admits g n.name)

theorem perform_checkDependency (g : Graph) (b : Binder) (name : String) (v : ValueId) :
    perform (checkDependency g name v) b = (b.admits g name v, b) := by
  unfold checkDependency admits
  cases g.has v with
  | false => rfl
  | true =>
    show perform (if !g.isLeaf v && v ∉ b.named then throw _ else pure ()) b = _
    split <;> rfl

/-- Checks that only read the binder, one after the other. -/
theorem perform_forM {f : α → BinderCall PUnit} {f' : α → Except BindingError PUnit} {b : Binder}
    (h : ∀ a, perform (f a) b = (f' a, b)) (as : List α) :
    perform (as.forM f) b = (as.forM f', b) := by
  induction as with
  | nil => rfl
  | cons a as ih =>
    show perform (f a >>= fun _ => as.forM f) b = (f' a >>= fun _ => as.forM f', b)
    rw [perform_seq, h a]
    cases f' a with
    | ok _ => exact ih
    | error e => rfl

/-- The binder with one more binding. -/
def extended (b : Binder) (n : NameRequest) : Binder :=
  ⟨b.bindings ++ [n.numbered b.next], insert n.value b.named, b.next + 1⟩

/-- **A call is refused and changes nothing, or it adds one binding.** -/
theorem perform_bind (g : Graph) (n : NameRequest) (b : Binder) :
    perform (bind g n) b =
      match b.verdict g n with
      | .ok _ => (.ok b.next, b.extended n)
      | .error e => (.error e, b) := by
  unfold bind verdict
  cases isBlankText n.name with
  | true => rfl
  | false =>
    cases g.has n.value with
    | false => rfl
    | true =>
      have hChecks := perform_forM (perform_checkDependency g b n.name) (n.dependsOn.getD [])
      simp only [Bool.false_eq_true, ↓reduceIte, Bool.not_true]
      rw [perform_seq, hChecks]
      -- Nothing has been changed yet, and once the checks have passed nothing stops the call.
      cases (n.dependsOn.getD []).forM (b.admits g n.name) with
      | ok _ => rfl
      | error e => rfl

/-- **A call that fails leaves the binder as it was.** -/
theorem eq_of_refused {n : NameRequest} {b b' : Binder} {e : BindingError}
    (h : perform (bind g n) b = (.error e, b')) : b' = b := by
  rw [perform_bind] at h
  cases hVerdict : b.verdict g n with
  | ok _ =>
    rw [hVerdict] at h
    exact absurd (congrArg Prod.fst h) (by simp)
  | error e' =>
    rw [hVerdict] at h
    exact (congrArg Prod.snd h).symm

/-! ## Binders and the bindings that they hold -/

theorem mem_named_holding {bindings : List Binding} {v : ValueId} :
    v ∈ (holding bindings).named ↔ isTarget bindings v = true := by
  simp [holding, isTarget, List.any_eq_true]

theorem verdict_holding (g : Graph) (bindings : List Binding) (n : NameRequest) :
    (holding bindings).verdict g n = checkBinding g bindings n.value n.name n.dependsOn := by
  have hAdmits : ∀ v, (holding bindings).admits g n.name v =
      ArrayEquations.checkDependency g bindings n.name v := by
    intro v
    unfold admits ArrayEquations.checkDependency
    by_cases hNamed : isTarget bindings v = true
    · have hMem := mem_named_holding.mpr hNamed
      simp [hMem, hNamed]
    · have hMem := mt mem_named_holding.mp hNamed
      cases g.isLeaf v <;> simp [hMem, hNamed]
  unfold verdict checkBinding
  rw [funext hAdmits]

/-- A call of the binder that holds bindings adds a binding to them as `addBinding` does. -/
theorem perform_bind_holding (g : Graph) (n : NameRequest) (bindings : List Binding) :
    perform (bind g n) (holding bindings) =
      match addBinding g bindings n.value n.name n.dependsOn with
      | .ok bindings' => (.ok bindings.length, holding bindings')
      | .error e => (.error e, holding bindings) := by
  rw [perform_bind, verdict_holding, addBinding]
  cases checkBinding g bindings n.value n.name n.dependsOn with
  | error e => rfl
  | ok _ =>
    have hExtended : (holding bindings).extended n =
        holding (bindings ++ [n.numbered bindings.length]) := by
      simp [extended, holding, NameRequest.numbered, Finset.union_comm]
    exact congrArg (Prod.mk _) hExtended

/-! ## Several calls -/

section Attempts

variable {bindings bindings' : List Binding} {n : NameRequest}

/-- After a refused call the rest is as if it had not been made. -/
theorem attempt_of_refused {e : BindingError}
    (h : addBinding g bindings n.value n.name n.dependsOn = .error e) (ns : List NameRequest) :
    attempt g (holding bindings) (n :: ns) =
      (.error e :: (attempt g (holding bindings) ns).1, (attempt g (holding bindings) ns).2) := by
  rw [attempt, perform_bind_holding, h]

theorem attempt_of_accepted (h : addBinding g bindings n.value n.name n.dependsOn = .ok bindings')
    (ns : List NameRequest) :
    attempt g (holding bindings) (n :: ns) =
      (.ok bindings.length :: (attempt g (holding bindings') ns).1,
        (attempt g (holding bindings') ns).2) := by
  rw [attempt, perform_bind_holding, h]

end Attempts

/-- **Several calls add the bindings of the requests that are accepted**, and number them one after
the other. Those requests alone would all be accepted, with the same binder in the end. -/
theorem attempt_holding (g : Graph) (ns : List NameRequest) (bindings : List Binding) :
    let made := attempt g (holding bindings) ns
    let kept := accepted ns made.1
    made.2 = holding (bindings ++ NameRequest.numberedFrom bindings.length kept) ∧
      made.1.filterMap Except.toOption = List.range' bindings.length kept.length ∧
      attempt g (holding bindings) kept =
        ((List.range' bindings.length kept.length).map .ok, made.2) := by
  induction ns generalizing bindings with
  | nil => exact ⟨by simp [attempt, accepted, NameRequest.numberedFrom], rfl, rfl⟩
  | cons n ns ih =>
    cases hAdd : addBinding g bindings n.value n.name n.dependsOn with
    -- A request that is refused leaves the binder as it was.
    | error e =>
      rw [attempt_of_refused hAdd]
      exact ih bindings
    | ok bindings' =>
      obtain ⟨-, hEq⟩ := addBinding_eq_ok.mp hAdd
      have hLength : bindings'.length = bindings.length + 1 := by simp [hEq]
      obtain ⟨hBinder, hNumbers, hAlone⟩ := ih bindings'
      rw [hLength] at hBinder hNumbers hAlone
      have hKept : accepted (n :: ns) (attempt g (holding bindings) (n :: ns)).1 =
          n :: accepted ns (attempt g (holding bindings') ns).1 := by
        rw [attempt_of_accepted hAdd]
        rfl
      dsimp only
      rw [hKept, attempt_of_accepted hAdd, attempt_of_accepted hAdd, List.length_cons,
        List.range'_succ]
      refine ⟨?_, ?_, ?_⟩
      · rw [hBinder, hEq, List.append_assoc]
        rfl
      · exact congrArg (bindings.length :: ·) hNumbers
      · rw [hAlone]
        rfl

/-! ## Replaying -/

/-- Bindings that are replayed to themselves still are with one more that is accepted. -/
theorem replayBindings_add {bindings bindings' : List Binding} {v : ValueId} {name : String}
    {dependsOn : Option (List ValueId)} (h : replayBindings g bindings = .ok bindings)
    (hAdd : addBinding g bindings v name dependsOn = .ok bindings') :
    replayBindings g bindings' = .ok bindings' := by
  obtain ⟨-, rfl⟩ := addBinding_eq_ok.mp hAdd
  calc replayBindings g (bindings ++ [⟨bindings.length, name, v, dependsOn⟩])
      = (replayBindings g bindings >>= fun before =>
          addBinding g before v name dependsOn >>= pure) := by
        rw [replayBindings, List.foldlM_append]
        rfl
    _ = (addBinding g bindings v name dependsOn >>= pure) := by
        rw [h]
        rfl
    _ = .ok (bindings ++ [⟨bindings.length, name, v, dependsOn⟩]) := by
        rw [hAdd]
        rfl

/-- What bindings are replayed to is replayed to itself. -/
theorem replayBindings_idem {bindings collected : List Binding}
    (h : replayBindings g bindings = .ok collected) :
    replayBindings g collected = .ok collected :=
  foldlM_preserves (P := fun bs => replayBindings g bs = .ok bs)
    (fun _ _ _ => replayBindings_add) rfl h

/-- If what a binder holds is replayed to itself, so is what it holds after several calls. -/
theorem replayBindings_attempt {bindings : List Binding}
    (h : replayBindings g bindings = .ok bindings) (ns : List NameRequest) :
    ∃ bindings', (attempt g (holding bindings) ns).2 = holding bindings' ∧
      replayBindings g bindings' = .ok bindings' := by
  induction ns generalizing bindings with
  | nil => exact ⟨bindings, rfl, h⟩
  | cons n ns ih =>
    cases hAdd : addBinding g bindings n.value n.name n.dependsOn with
    | error e =>
      rw [attempt_of_refused hAdd]
      exact ih h
    | ok bindings' =>
      rw [attempt_of_accepted hAdd]
      exact ih (replayBindings_add h hAdd)

/-- Replaying bindings yields the binder that holds what `replayBindings` collects. -/
theorem replay_eq (g : Graph) (bindings : List Binding) :
    replay g bindings = (replayBindings g bindings).map holding := by
  -- One request replayed is one binding added, and it fails where the other does.
  have hAfter : ∀ before (x : Binding), (holding before).after g x.request =
      (addBinding g before x.value x.name x.dependsOn).map holding := by
    intro before x
    rw [after, perform_bind_holding]
    unfold Binding.request
    dsimp only
    cases addBinding g before x.value x.name x.dependsOn <;> rfl
  suffices h : ∀ before, bindings.foldlM (fun b x => b.after g x.request) (holding before) =
      (bindings.foldlM (fun bs x => addBinding g bs x.value x.name x.dependsOn) before).map
        holding from h []
  induction bindings with
  | nil => exact fun _ => rfl
  | cons x bindings ih =>
    intro before
    rw [List.foldlM_cons, List.foldlM_cons, hAfter]
    cases addBinding g before x.value x.name x.dependsOn with
    | error e => rfl
    | ok before' => exact ih before'

/-! ## Dependencies -/

/-- Every dependency is an input or was named by a binding before. -/
def DependsOnEarlier (g : Graph) (bindings : List Binding) : Prop :=
  ∀ before b after, bindings = before ++ b :: after → ∀ w ∈ b.dependsOn.getD [],
    g.isLeaf w = true ∨ ∃ b' ∈ before, b'.value = w

theorem dependsOnEarlier_add {bindings bindings' : List Binding} {v : ValueId} {name : String}
    {dependsOn : Option (List ValueId)} (h : DependsOnEarlier g bindings)
    (hAdd : addBinding g bindings v name dependsOn = .ok bindings') :
    DependsOnEarlier g bindings' := by
  obtain ⟨hCheck, rfl⟩ := addBinding_eq_ok.mp hAdd
  obtain ⟨-, -, hDependencies⟩ := checkBinding_eq_ok.mp hCheck
  intro before b after hSplit w hw
  -- The binding is the new one, or it is followed by the new one.
  rcases List.eq_nil_or_concat after with rfl | ⟨after', last, rfl⟩
  · obtain ⟨rfl, rfl⟩ : bindings = before ∧ _ = b := by simpa using List.append_inj' hSplit rfl
    obtain ⟨-, hLeaf | hTarget⟩ := checkDependency_eq_ok.mp (hDependencies w hw)
    · exact Or.inl hLeaf
    · exact Or.inr (by simpa [isTarget] using hTarget)
  · have hEnds : bindings ++ [⟨bindings.length, name, v, dependsOn⟩] =
        (before ++ b :: after') ++ [last] := by simpa using hSplit
    exact h before b after' (List.append_inj' hEnds rfl).1 w hw

theorem dependsOnEarlier_of_replay {bindings collected : List Binding}
    (h : replayBindings g bindings = .ok collected) : DependsOnEarlier g collected :=
  foldlM_preserves (fun _ _ _ => dependsOnEarlier_add)
    (fun before b after hNil => absurd hNil (by simp)) h

end Binder

/-! ## Traces -/

/-- The bindings are replayed to themselves. -/
def Recorder.Replays (r : Recorder) : Prop := replayBindings r.graph r.bindings = .ok r.bindings

theorem Recorder.lasting_replays : Recorder.Lasting Recorder.Replays where
  value r v h := replayBindings_extend (Graph.Extends.push r.graph v) h
  argument _ _ h := h
  tag _ _ h := h
  failure _ _ h := h
  named _ _ _ _ _ h hAdd := Binder.replayBindings_add h hAdd

/-- A recording that goes on from any trace starts with bindings that are replayed. -/
theorem Recorder.replays_of_resume {t : Trace} {r : Recorder} (h : Recorder.resume t = .ok r) :
    r.Replays := by
  obtain ⟨bindings, hBindings, h⟩ := bind_eq_ok h
  obtain rfl := Except.ok.inj h
  exact Binder.replayBindings_idem (mapError_eq_ok hBindings)

/-- A recorder that comes about by calls, on whatever handles, from nothing or from a trace. -/
inductive Recorder.Reached : Recorder → Prop
  | empty : Reached .empty
  | resumed {t : Trace} {r : Recorder} (h : Recorder.resume t = .ok r) : Reached r
  | called {r : Recorder} (c : RecordingCall) (h : Reached r) : Reached (c.record r).2

theorem Recorder.Reached.replays {r : Recorder} (h : r.Reached) : r.Replays := by
  induction h with
  | empty => rfl
  | resumed h => exact replays_of_resume h
  | called c _ ih => exact c.preserves_record lasting_replays _ ih

theorem Recorder.Reached.of_after? {r r' : Recorder} {calls : List RecordingCall} (h : r.Reached)
    (hAfter : r.after? calls = some r') : r'.Reached := by
  induction calls generalizing r with
  | nil =>
    obtain rfl := Option.some.inj hAfter
    exact h
  | cons c calls ih =>
    rw [Recorder.after?] at hAfter
    split at hAfter
    · exact ih (h.called c) hAfter
    · exact absurd hAfter (by simp)

namespace Trace

/-- A recording was closed with the trace, by its author, by a differentiation or by the capture of
a script, or the trace was imported. -/
inductive Returned : Trace → Prop
  | recorded {r : Recorder} {name : String} {outputs : List ValueId} {t : Trace} (h : r.Reached)
      (hFinish : r.finish name outputs = .ok t) : Returned t
  | derived {t t' : Trace} {mode : Mode} {positions : List Nat}
      (h : t.differentiate mode positions = .ok t') : Returned t'
  | captured {s : Script} {d : Script.Definition} {shapes : List Shape} {t : Trace}
      (h : s.capture d shapes = .ok t) : Returned t
  | imported {text : String} {t : Trace} (h : ofText text = .ok t) : Returned t

/-- A trace of calls on values of the recording is one of calls on whatever handles. -/
theorem IsRecorded.returned {t : Trace} (h : t.IsRecorded) : t.Returned := by
  obtain ⟨calls, r, name, outputs, hAfter, hFinish⟩ := h
  exact .recorded (Recorder.Reached.empty.of_after? hAfter) hFinish

/-- The recording of the trace can be closed as it is. -/
structure Closable (t : Trace) : Prop where
  replays : t.recorder.Replays
  outputs_ne_nil : t.outputs ≠ []
  output_lt : ∀ o ∈ t.outputs, o < t.graph.size

theorem closable_of_finish {r : Recorder} {name : String} {outputs : List ValueId} {t : Trace}
    (h : r.Replays) (hFinish : r.finish name outputs = .ok t) : t.Closable := by
  obtain ⟨-, hNonempty, hLt, rfl⟩ := Recorder.finish_eq_ok hFinish
  exact ⟨h, hNonempty, hLt⟩

theorem closable_of_extend {t t' : Trace} {action : Differentiating (List ValueId)}
    (hAction : Recording.Preserves Recorder.Replays action.run)
    (h : t.extend action = .ok t') : t'.Closable := by
  obtain ⟨r, r', hResume, hRun, hNonempty, hLt, hEq⟩ := exists_run_of_extend h
  have hReplays : r'.Replays := by
    have hAfter := hAction r (Recorder.replays_of_resume hResume)
    unfold Recording.Ensures at hAfter
    rwa [show action.run r = _ from hRun] at hAfter
  rw [hEq]
  exact ⟨hReplays, hNonempty, hLt⟩

theorem closable_of_differentiate {t t' : Trace} {mode : Mode} {positions : List Nat}
    (h : t.differentiate mode positions = .ok t') : t'.Closable := by
  obtain ⟨wrt, hSelect⟩ := exists_selectArguments_of_differentiate h
  have hForward := preserves_recordForward Recorder.lasting_replays t.graph wrt t.outputs
  have hReverse := preserves_recordReverse Recorder.lasting_replays t.graph
    (t.bindings.map (·.value)) wrt t.outputs
  cases mode with
  | jvp => exact closable_of_extend hForward (differentiate_jvp hSelect ▸ h)
  | vjp => exact closable_of_extend (hReverse false) (differentiate_vjp hSelect ▸ h)
  | grad =>
    have hScalar := hasScalarOutput_of_grad h
    exact closable_of_extend (hReverse true) (differentiate_grad hSelect hScalar ▸ h)

theorem closable_of_capture {s : Script} {d : Script.Definition} {shapes : List Shape} {t : Trace}
    (h : s.capture d shapes = .ok t) : t.Closable := by
  obtain ⟨-, outputs, r, hRun, hFinish⟩ := Script.capture_eq_ok.mp h
  have hAfter := Script.preserves_record Recorder.lasting_replays s d shapes Recorder.empty rfl
  unfold Recording.Ensures at hAfter
  rw [show (s.record d shapes).run Recorder.empty = _ from hRun] at hAfter
  exact closable_of_finish hAfter hFinish

theorem Returned.closable {t : Trace} (h : t.Returned) : t.Closable := by
  cases h with
  | recorded h hFinish => exact closable_of_finish h.replays hFinish
  | derived h => exact closable_of_differentiate h
  | captured h => exact closable_of_capture h
  | imported h =>
    have hImportable := importable_of_ofText h
    exact ⟨hImportable.wellFormed.bindings, hImportable.wellFormed.outputs_ne_nil,
      hImportable.wellFormed.output_lt⟩

/-- **A trace can be resumed, and closed again it is the trace.** -/
theorem Closable.resumed {t : Trace} (h : t.Closable) :
    Recorder.resume t = .ok t.recorder ∧ t.recorder.finish t.name t.outputs = .ok t := by
  have hResume : Recorder.resume t = .ok t.recorder := by
    have hReplay : replayBindings t.graph t.bindings = .ok t.bindings := h.replays
    rw [Recorder.resume, hReplay]
    rfl
  have hFind : t.outputs.find? (!t.recorder.graph.has ·) = none := by
    rw [List.find?_eq_none]
    intro o ho
    have hHas : t.graph.has o = true := decide_eq_true (h.output_lt o ho)
    simpa [recorder] using hHas
  refine ⟨hResume, ?_⟩
  show (if t.outputs.isEmpty then _ else _) = _
  rw [if_neg (by simpa using h.outputs_ne_nil), hFind]
  rfl

end Trace

/-! ## All of it -/

/-- **Naming values is all or nothing, and can be replayed.** A call that fails leaves the binder as
it was. After any calls the binder holds the bindings of the accepted requests, numbered from zero
on, and these requests alone lead to the same binder. What its bindings depend on are inputs and
values that were named earlier. Replayed, its bindings yield the binder itself. So every trace that
is returned or imported can be resumed, and closed again under its name with its outputs it is the
same trace. -/
theorem Binder.replay_reproduces (g : Graph) (ns : List NameRequest) :
    (∀ b b' n e, perform (bind g n) b = (.error e, b') → b' = b) ∧
    (let made := attempt g new ns
      let kept := accepted ns made.1
      made.2.bindings = NameRequest.numberedFrom 0 kept ∧
        made.1.filterMap Except.toOption = List.range kept.length ∧
        attempt g new kept = ((List.range kept.length).map .ok, made.2) ∧
        DependsOnEarlier g made.2.bindings ∧
        replay g made.2.bindings = .ok made.2) ∧
    ∀ t : Trace, t.Returned →
      DependsOnEarlier t.graph t.bindings ∧
        (∃ b, replay t.graph t.bindings = .ok b ∧ b.bindings = t.bindings) ∧
        ∃ r, Recorder.resume t = .ok r ∧ r.finish t.name t.outputs = .ok t := by
  have hReplay : ∀ {g bindings}, replayBindings g bindings = .ok bindings →
      replay g bindings = .ok (holding bindings) := by
    intro g bindings h
    rw [replay_eq, h]
    rfl
  refine ⟨fun b b' n e h => eq_of_refused h, ?_, ?_⟩
  · obtain ⟨hBinder, hNumbers, hAlone⟩ := attempt_holding g ns []
    have hEmpty : replayBindings g [] = .ok [] := rfl
    obtain ⟨bindings, hHeld, hReplays⟩ := replayBindings_attempt hEmpty ns
    -- The binder at the start is the one that holds no bindings.
    have hBindings : (attempt g new ns).2.bindings = bindings := congrArg Binder.bindings hHeld
    have hBinder' := congrArg Binder.bindings hBinder
    dsimp only
    refine ⟨hBinder', ?_, ?_, ?_, ?_⟩
    · rw [List.range_eq_range']
      exact hNumbers
    · rw [List.range_eq_range']
      exact hAlone
    · rw [hBindings]
      exact dependsOnEarlier_of_replay hReplays
    · rw [hBindings, hReplay hReplays]
      exact congrArg Except.ok hHeld.symm
  · intro t ht
    have hClosable := ht.closable
    obtain ⟨hResume, hFinish⟩ := hClosable.resumed
    exact ⟨dependsOnEarlier_of_replay hClosable.replays, ⟨_, hReplay hClosable.replays, rfl⟩, _,
      hResume, hFinish⟩

/-- A sum is named after itself, which is refused before it has a name and accepted afterwards. -/
theorem Binder.replay_reproduces_doubledSum :
    let g := Trace.doubledSum.graph
    let ns : List NameRequest :=
      [⟨3, "s", some [3]⟩, ⟨3, "s", some [0, 1]⟩, ⟨3, "t", some [3]⟩, ⟨6, " ", none⟩]
    let made := attempt g new ns
    made.1 = [.error (.namelessDependency "s" 3), .ok 0, .ok 1, .error .blankName] ∧
      made.2.bindings = [⟨0, "s", 3, some [0, 1]⟩, ⟨1, "t", 3, some [3]⟩] ∧
      replay g made.2.bindings = .ok made.2 ∧
      Trace.doubledSum.Returned ∧
      ∃ r, Recorder.resume Trace.doubledSum = .ok r ∧
        r.finish "f" [6] = .ok Trace.doubledSum := by
  have hRecorded : Trace.doubledSum.IsRecorded := by
    exact ⟨Trace.doubledSumCalls, ⟨Trace.doubledSum.graph, Trace.doubledSum.arguments,
      Trace.doubledSum.bindings, Trace.doubledSum.tags, none⟩, "f", [6], by decide, by decide⟩
  obtain ⟨-, ⟨-, -, -, -, hReplay⟩, hTraces⟩ := Binder.replay_reproduces Trace.doubledSum.graph
    [⟨3, "s", some [3]⟩, ⟨3, "s", some [0, 1]⟩, ⟨3, "t", some [3]⟩, ⟨6, " ", none⟩]
  obtain ⟨-, -, hResumed⟩ := hTraces Trace.doubledSum hRecorded.returned
  exact ⟨by decide, by decide, hReplay, hRecorded.returned, hResumed⟩

end ArrayEquations
