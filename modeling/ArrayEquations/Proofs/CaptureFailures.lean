import ArrayEquations.Proofs.CaptureSteps
import ArrayEquations.Proofs.LastingProperties

/-!
# ArrayEquations — which failure a capture reports

A capture can fail in two ways. A term without a value ends it at once. An operation without a
result is kept by the recorder, which goes on, and is reported when the recording is closed. The
recorder keeps the first of its failures, and the evaluation has only one. But where the recording
has failed and the evaluation fails later, the recording is not closed, and the later failure is the
one that is reported.

## Main definitions

* `Recording.KeepsFailure` — an earlier failure of the recording stays.
* `Settles` — an action has a value, or fails at a place without recording anything.
* `StepKind` — what a step of a capture can do.
* `FirstFailure` — the failure that shows first in a run.

## Main results

* `stepKind_of_step` — there are no other steps.
* `Reaches.firstFailure` — with which failure a run ends.
* `capture_reports_failure` — which failure a capture reports.
* `capture_reports_later_failure` — a capture that reports another one than the first.
-/

namespace ArrayEquations

/-! ## The failure that a recorder keeps -/

namespace Recording

/-- After the action the recorder has the failure that it had before, if it had one. -/
def KeepsFailure {α : Type} (m : Recording α) : Prop :=
  ∀ r, Ensures m r fun _ r' => ∀ e, r.error = some e → r'.error = some e

/-- A failure is not taken away, and a later one does not take its place. -/
theorem lasting_failure (e : RecordingError) : Recorder.Lasting (·.error = some e) where
  value _ _ h := h
  argument _ _ h := h
  tag _ _ h := h
  failure r e' h := by
    show r.error.or (some e') = some e
    rw [h]
    rfl
  named _ _ _ _ _ h _ := h

/-- So what preserves every lasting property keeps the failure. -/
theorem KeepsFailure.of_lasting {α : Type} {m : Recording α}
    (h : ∀ {P : Recorder → Prop}, Recorder.Lasting P → Preserves P m) : KeepsFailure m :=
  fun r e hError => h (lasting_failure e) r hError

end Recording

end ArrayEquations

namespace ArrayEquations.Script

open CaptureState

/-! ## Actions of one step -/

section

variable {α β : Type} {P : Span → TermError → Prop}

/-- The action has a value, and an earlier failure of the recording stays; or it fails at a place,
and records nothing. -/
def Settles (a : Evaluation α) (P : Span → TermError → Prop) : Prop :=
  ∀ r, (∃ v r', outcomeOf a r = (.ok v, r') ∧ ∀ e, r.error = some e → r'.error = some e) ∨
    ∃ span cause, outcomeOf a r = (.error (.term span cause), r) ∧ P span cause

/-- The action records nothing. It has a value, or fails at a place. -/
def Reads (a : Evaluation α) (P : Span → TermError → Prop) : Prop :=
  ∀ r, (∃ v, outcomeOf a r = (.ok v, r)) ∨
    ∃ span cause, outcomeOf a r = (.error (.term span cause), r) ∧ P span cause

theorem Reads.settles {a : Evaluation α} (h : Reads a P) : Settles a P := fun r =>
  (h r).imp (fun ⟨v, hv⟩ => ⟨v, r, hv, fun _ => id⟩) id

theorem reads_pure (v : α) : Reads (pure v) P := fun _ => Or.inl ⟨v, rfl⟩

theorem reads_failAt {span : Span} {cause : TermError} (h : P span cause) :
    Reads (failAt span cause : Evaluation α) P := fun _ => Or.inr ⟨span, cause, rfl, h⟩

theorem settles_lift {m : Recording α} (h : m.KeepsFailure) : Settles (m : Evaluation α) P :=
  fun r => Or.inl ⟨_, _, outcomeOf_lift m r, h r⟩

theorem Reads.bind {a : Evaluation α} {f : α → Evaluation β} (h : Reads a P)
    (hNext : ∀ v, Reads (f v) P) : Reads (a >>= f) P := by
  intro r
  rcases h r with ⟨v, hv⟩ | ⟨span, cause, hFailed, hP⟩
  · rw [outcomeOf_ok hv]
    exact hNext v r
  · exact Or.inr ⟨span, cause, outcomeOf_error hFailed, hP⟩

theorem Reads.bind_settles {a : Evaluation α} {f : α → Evaluation β} (h : Reads a P)
    (hNext : ∀ v, Settles (f v) P) : Settles (a >>= f) P := by
  intro r
  rcases h r with ⟨v, hv⟩ | ⟨span, cause, hFailed, hP⟩
  · rw [outcomeOf_ok hv]
    exact hNext v r
  · exact Or.inr ⟨span, cause, outcomeOf_error hFailed, hP⟩

theorem reads_mapM {f : α → Evaluation β} (h : ∀ a, Reads (f a) P) (as : List α) :
    Reads (as.mapM f) P := by
  induction as with
  | nil => exact reads_pure []
  | cons a as ih =>
    rw [List.mapM_cons]
    exact (h a).bind fun b => ih.bind fun bs => reads_pure (b :: bs)

end

/-- The cause is not that a call is recursive. -/
def NoRecursion (_ : Span) (cause : TermError) : Prop := ∀ name, cause ≠ .recursiveCall name

theorem reads_find (scope : Scope) (name : Identifier) : Reads (scope.find name) NoRecursion := by
  unfold Scope.find
  split
  · exact reads_pure _
  · exact reads_failAt (by simp [NoRecursion])

theorem reads_axisOf (t : Term) : Reads (axisOf t) NoRecursion := by
  unfold axisOf
  split
  · split
    · exact reads_pure _
    · exact reads_failAt (by simp [NoRecursion])
  · exact reads_failAt (by simp [NoRecursion])

theorem reads_dimsOf (t : Term) : Reads (dimsOf t) NoRecursion := by
  unfold dimsOf
  split
  · exact reads_pure _
  · exact reads_failAt (by simp [NoRecursion])

/-- A built-in call reads its other arguments before it records anything. -/
theorem settles_recordBuiltin (b : Builtin) (v : ValueId) (others : List Term) :
    Settles (recordBuiltin b v others) NoRecursion := by
  unfold recordBuiltin
  split
  · exact settles_lift (.of_lasting fun h => Recording.preserves_call h _ v)
  · exact settles_lift (.of_lasting fun h => Recording.preserves_cast h v _)
  · exact settles_lift (.of_lasting fun h => Recording.preserves_sumAll h v)
  · exact (reads_mapM reads_axisOf _).bind_settles fun axes =>
      settles_lift (.of_lasting fun h => Recording.preserves_sum h v axes)
  · exact (reads_dimsOf _).bind_settles fun dims =>
      settles_lift (.of_lasting fun h => Recording.preserves_transpose h v dims)
  · exact settles_lift (.of_lasting fun h => Recording.preserves_transposeAll h v)
  · exact (reads_dimsOf _).bind_settles fun dims =>
      settles_lift (.of_lasting fun h => Recording.preserves_reshape h v dims)
  · exact (reads_dimsOf _).bind_settles fun dims =>
      settles_lift (.of_lasting fun h => Recording.preserves_broadcastTo h v dims)
  · exact (reads_pure v).settles
  · exact (reads_pure v).settles

theorem settles_named (scope : Scope) (v : ValueId) (name : Identifier)
    (dependsOn : Option (List Identifier)) :
    Settles (do
      let dependencies ← dependsOn.mapM fun names => names.mapM scope.find
      Recording.named v name.name dependencies) NoRecursion := by
  refine Reads.bind_settles ?_ fun dependencies =>
    settles_lift (.of_lasting fun h => Recording.preserves_named h v name.name dependencies)
  cases dependsOn with
  | none => exact reads_pure none
  | some names =>
    exact (reads_mapM (reads_find scope) names).bind fun vs => reads_pure (some vs)

/-! ## What a step can do -/

namespace CaptureState

/-- The state enters a call of a function, named at a place. -/
def Calls (st : CaptureState) (name : String) (span : Span) : Prop :=
  ∃ scope place arguments, st.focus = .term scope (.call place ⟨name, span⟩ arguments)

/-- What a step from the state may fail with: it is a recursive call only if the state enters a
call of a function that is open. -/
def MayRefuse (st : CaptureState) (span : Span) (cause : TermError) : Prop :=
  ∀ name, cause = .recursiveCall name → st.Calls name span ∧ name ∈ st.stack

end CaptureState

theorem Settles.mayRefuse {α : Type} {a : Evaluation α} (h : Settles a NoRecursion)
    (st : CaptureState) : Settles a st.MayRefuse := fun r =>
  (h r).imp id fun ⟨span, cause, hOutcome, hNone⟩ =>
    ⟨span, cause, hOutcome, fun name hCause => absurd hCause (hNone name)⟩

variable {s : Script} {st st' last : CaptureState} {e : CaptureError}

/-- **The steps of a capture.** A step performs an action, goes on to something else, closes the
recording, or leaves a frame because of a failure. -/
inductive StepKind (st : CaptureState) : CaptureState → Prop
  | performed {a : Evaluation ValueId} (frames : List Frame) (stack : List String)
      (h : Settles a st.MayRefuse) : StepKind st (ended frames stack (outcomeOf a st.recorder))
  | moved {st' : CaptureState} (hRecorder : st'.recorder = st.recorder)
      (hFocus : ∀ e, st'.focus ≠ .failed e) : StepKind st st'
  | closed (frames : List Frame) (stack : List String) (name : String) (vs : List ValueId) :
      StepKind st (closing frames stack st.recorder (st.recorder.finish name vs))
  | left {e : CaptureError} {st' : CaptureState} (hFocus : st.focus = .failed e)
      (hFocus' : st'.focus = .failed e) (hRecorder : st'.recorder = st.recorder) : StepKind st st'

theorem StepKind.perform {a : Evaluation ValueId} (h : Settles a NoRecursion) :
    StepKind st (st.perform a) := .performed st.frames st.stack (h.mayRefuse st)

theorem StepKind.await (frame : Frame) {focus : Focus} (h : ∀ e, focus ≠ .failed e) :
    StepKind st (st.await frame focus) := .moved rfl h

theorem stepKind_enter {scope : Scope} {t : Term} (h : st.focus = .term scope t) :
    StepKind st (s.enter st scope t) := by
  cases t with
  | number span x =>
    exact .perform (settles_lift (.of_lasting fun h => Recording.preserves_literal h x))
  | dims span ns => exact .perform (reads_failAt (by simp [NoRecursion])).settles
  | var name => exact .perform (reads_find scope name).settles
  | neg span operand => exact .await _ (by simp)
  | binary span op lhs rhs => exact .await _ (by simp)
  | named span value name dependsOn => exact .await _ (by simp)
  | call span callee arguments =>
    rw [enter]
    split
    · rename_i d hFind
      have hName : d.name.name = callee.name := by simpa using List.find?_some hFind
      split
      · rename_i hOpen
        -- The only step that refuses a call because the function is open.
        refine .performed st.frames st.stack (reads_failAt fun name hCause => ?_).settles
        obtain rfl := TermError.recursiveCall.inj hCause
        exact ⟨⟨scope, span, arguments, by rw [hName, h]⟩, by simpa using hOpen⟩
      · split
        · exact .perform (reads_failAt (by simp [NoRecursion])).settles
        · exact .moved rfl (by simp)
    · split
      · split
        · split
          · exact .perform (reads_failAt (by simp [NoRecursion])).settles
          · exact .await _ (by simp)
        · exact .perform (reads_failAt (by simp [NoRecursion])).settles
      · exact .moved rfl (by simp)

theorem stepKind_take {v : ValueId} {frame : Frame} {frames : List Frame}
    (h : take { st with frames := frames } v frame = some st') : StepKind st st' := by
  -- A frame that records something is performed; the others only move on to the next term.
  cases frame with
  | neg =>
    obtain rfl := Option.some.inj h
    have hNeg : (Recording.neg v).KeepsFailure := .of_lasting fun h => Recording.preserves_neg h v
    exact .performed frames _ (settles_lift hNeg)
  | rhs op scope rhs =>
    obtain rfl := Option.some.inj h
    exact .moved rfl (by simp [await])
  | binary op lhs =>
    obtain rfl := Option.some.inj h
    have hBinary : (recordBinary op lhs v).KeepsFailure :=
      .of_lasting fun h => preserves_recordBinary h op lhs v
    exact .performed frames _ (settles_lift hBinary)
  | named scope name dependsOn =>
    obtain rfl := Option.some.inj h
    exact .performed frames _ ((settles_named scope v name dependsOn).mayRefuse st)
  | builtin b others =>
    obtain rfl := Option.some.inj h
    exact .performed frames _ ((settles_recordBuiltin b v others).mayRefuse st)
  | item use scope done rest =>
    obtain rfl := Option.some.inj h
    exact .moved rfl (by simp)
  | bind d scope name rest =>
    obtain rfl := Option.some.inj h
    exact .moved rfl (by simp)
  | call d span => exact absurd h (by simp [take])
  | entry name => exact absurd h (by simp [take])

theorem stepKind_takeResult {vs : List ValueId} {frame : Frame} {frames : List Frame}
    (h : takeResult { st with frames := frames } vs frame = some st') : StepKind st st' := by
  unfold takeResult at h
  split at h
  · rename_i d span
    obtain rfl := Option.some.inj h
    refine .performed frames _ (Settles.mayRefuse ?_ st)
    split
    · exact (reads_pure _).settles
    · exact (reads_failAt (by simp [NoRecursion])).settles
  · obtain rfl := Option.some.inj h
    exact .closed _ _ _ _
  · exact absurd h (by simp)

/-- Every step is of one of these kinds. -/
theorem stepKind_of_step (h : s.step? st = some st') : StepKind st st' := by
  unfold step? at h
  split at h
  · rename_i scope t hFocus
    obtain rfl := Option.some.inj h
    exact stepKind_enter hFocus
  · obtain rfl := Option.some.inj h
    exact .await _ (by simp)
  · rename_i use scope done hFocus
    obtain rfl := Option.some.inj h
    cases use with
    | call d span => exact .moved rfl (by simp [useRow])
    | primitive name =>
      exact .perform (settles_lift (.of_lasting fun h => Recording.preserves_primitive h name done))
    | result => exact .moved rfl (by simp [useRow])
  · rename_i d scope rest hFocus
    obtain rfl := Option.some.inj h
    cases rest with
    -- A body that runs out of statements has no result, and the failure is that of an action.
    | nil => exact .perform (reads_failAt (by simp [NoRecursion])).settles
    | cons statement rest =>
      cases statement with
      | bind span name value => exact .await _ (by simp)
      | result span values => exact .moved rfl (by simp [nextStatement])
  · exact stepKind_take h
  · exact stepKind_takeResult h
  · rename_i e frame frames hFocus hFrames
    obtain rfl := Option.some.inj h
    exact .left hFocus hFocus rfl
  all_goals exact absurd h (by simp)

/-- A step to a failure: the failure was there, or it is one that closing the recording brings, or
it is that of a term, and nothing is recorded. -/
theorem failed_of_step (h : s.step? st = some st') (hFailed : st'.focus = .failed e) :
    st.focus = .failed e ∨
      (∃ name vs cause, e = .recording cause ∧ st.recorder.finish name vs = .error cause) ∨
      ∃ span cause, e = .term span cause ∧ st.MayRefuse span cause := by
  -- Only an action and the closing of the recording can turn a focus into a failure.
  cases stepKind_of_step h with
  | @performed a frames stack hSettles =>
    rcases hSettles st.recorder with ⟨v, r', hOutcome, -⟩ | ⟨span, cause, hOutcome, hRefuse⟩
    · rw [hOutcome] at hFailed
      exact absurd hFailed (by simp [ended])
    · rw [hOutcome] at hFailed
      obtain rfl : CaptureError.term span cause = e := Focus.failed.inj hFailed
      exact Or.inr (Or.inr ⟨span, cause, rfl, hRefuse⟩)
  | moved _ hFocus => exact absurd hFailed (hFocus e)
  | closed frames stack name vs =>
    cases hFinish : st.recorder.finish name vs with
    | ok t =>
      rw [hFinish] at hFailed
      exact absurd hFailed (by simp [closing])
    | error cause =>
      rw [hFinish] at hFailed
      obtain rfl : CaptureError.recording cause = e := Focus.failed.inj hFailed
      exact Or.inr (Or.inl ⟨name, vs, cause, rfl, hFinish⟩)
  | left hFocus hFocus' =>
    rw [hFocus', Focus.failed.injEq] at hFailed
    exact Or.inl (hFailed ▸ hFocus)

/-- A failure of the recording stays. -/
theorem recorder_error_of_step (h : s.step? st = some st') {cause : RecordingError}
    (hError : st.recorder.error = some cause) : st'.recorder.error = some cause := by
  cases stepKind_of_step h with
  | @performed a frames stack hSettles =>
    rcases hSettles st.recorder with ⟨v, r', hOutcome, hKeeps⟩ | ⟨span, cause', hOutcome, -⟩
    · rw [hOutcome]
      exact hKeeps cause hError
    · rw [hOutcome]
      exact hError
  | moved hRecorder _ => rwa [hRecorder]
  | closed frames stack name vs =>
    cases st.recorder.finish name vs <;> exact hError
  | left _ _ hRecorder => rwa [hRecorder]

/-- After a failure there are only steps that leave frames. -/
theorem step_of_failed (h : s.step? st = some st') (hFailed : st.focus = .failed e) :
    st'.focus = .failed e := by
  obtain ⟨focus, frames, stack, r⟩ := st
  obtain rfl : focus = .failed e := hFailed
  cases frames with
  | nil => exact absurd h (by simp [step?])
  | cons frame frames =>
    obtain rfl := Option.some.inj h
    rfl

/-! ## Runs -/

theorem Reaches.failed (h : s.Reaches st st') (hFailed : st.focus = .failed e) :
    st'.focus = .failed e := by
  induction h with
  | refl => exact hFailed
  | tail _ hStep ih => exact step_of_failed hStep ih

theorem Reaches.recorder_error (h : s.Reaches st st') {cause : RecordingError}
    (hError : st.recorder.error = some cause) : st'.recorder.error = some cause := by
  induction h with
  | refl => exact hError
  | tail _ hStep ih => exact recorder_error_of_step hStep ih

/-- A failure that a run comes to was there at the start, or it is the failure of a step of the
run. -/
theorem Reaches.exists_step_to_failed (h : s.Reaches st last) (hFailed : last.focus = .failed e) :
    st.focus = .failed e ∨ ∃ st₁ st₂, s.Reaches st st₁ ∧ s.step? st₁ = some st₂ ∧
      st₁.focus ≠ .failed e ∧ st₂.focus = .failed e := by
  induction h with
  | refl => exact Or.inl hFailed
  | @tail st₁ st₂ hReaches hStep ih =>
    by_cases hEarlier : st₁.focus = .failed e
    · exact ih hEarlier
    · exact Or.inr ⟨st₁, st₂, hReaches, hStep, hEarlier, hFailed⟩

/-! ## The first failure -/

namespace CaptureState

/-- The failure that shows in a state: that at which the evaluation has stopped, or that which the
recorder keeps. -/
def failure? (st : CaptureState) : Option CaptureError :=
  match st.focus with
  | .failed e => some e
  | _ => st.recorder.error.map .recording

end CaptureState

/-- The first failure of a run: it shows in a state, and in no state before. -/
inductive FirstFailure (s : Script) : CaptureState → CaptureError → Prop
  | shown {st : CaptureState} {e : CaptureError} (h : st.failure? = some e) : FirstFailure s st e
  | later {st st' : CaptureState} {e : CaptureError} (hNone : st.failure? = none)
      (hStep : s.step? st = some st') (h : FirstFailure s st' e) : FirstFailure s st e

theorem failure?_of_failed (h : st.focus = .failed e) : st.failure? = some e := by
  unfold failure?
  rw [h]

/-- Where something other than the evaluation has failed, it is the recording. -/
theorem recorder_error_of_failure? (h : st.failure? = some e) (hFocus : st.focus ≠ .failed e) :
    ∃ cause, st.recorder.error = some cause ∧ e = .recording cause := by
  unfold failure? at h
  split at h
  · rename_i e' hFailed
    exact absurd (Option.some.inj h ▸ hFailed) hFocus
  · obtain ⟨cause, hCause, rfl⟩ := Option.map_eq_some_iff.mp h
    exact ⟨cause, hCause, rfl⟩

/-- A recorder that has failed is closed with its failure. -/
theorem finish_of_error {r : Recorder} {cause : RecordingError} (h : r.error = some cause)
    (name : String) (vs : List ValueId) : r.finish name vs = .error cause := by
  unfold Recorder.finish
  rw [h]

/-- A run from a state in which the recording has failed ends with this failure, or with that of a
term. -/
theorem Reaches.reported (h : s.Reaches st last) {cause : RecordingError}
    (hError : st.recorder.error = some cause) (hFocus : ∀ e', st.focus ≠ .failed e')
    (hFailed : last.focus = .failed e) :
    e = .recording cause ∨ ∃ span refused, e = .term span refused ∧ ∃ st', s.Reaches st st' ∧
      st'.focus = .failed e ∧ st'.recorder.error = some cause := by
  rcases h.exists_step_to_failed hFailed with hStart | ⟨st₁, st₂, hReaches, hStep, hBefore, hAfter⟩
  · exact absurd hStart (hFocus e)
  · have hError₁ := hReaches.recorder_error hError
    rcases failed_of_step hStep hAfter with hSame | ⟨name, vs, cause', rfl, hFinish⟩ |
      ⟨span, refused, rfl, -⟩
    · exact absurd hSame hBefore
    · -- Closing the recording brings its own failure, whichever values are returned.
      rw [finish_of_error hError₁, Except.error.injEq] at hFinish
      exact Or.inl (hFinish ▸ rfl)
    · exact Or.inr ⟨span, refused, rfl, st₂, hReaches.trans (.step hStep), hAfter,
        recorder_error_of_step hStep hError₁⟩

/-- A run that ends with a failure ends with its first one, unless that was one of the recording,
and the evaluation stops at a term later. -/
theorem Reaches.firstFailure (h : s.Reaches st last) (hFailed : last.focus = .failed e) :
    s.FirstFailure st e ∨ ∃ cause span refused, e = .term span refused ∧
      s.FirstFailure st (.recording cause) ∧
      ∃ st', s.Reaches st st' ∧ st'.focus = .failed e ∧ st'.recorder.error = some cause := by
  induction h using Relation.ReflTransGen.head_induction_on with
  | refl => exact Or.inl (.shown (failure?_of_failed hFailed))
  | @head st₁ st₂ hStep hRest ih =>
    cases hShown : st₁.failure? with
    | none =>
      rcases ih with hFirst | ⟨cause, span, refused, rfl, hFirst, st', hReaches, hAt⟩
      · exact Or.inl (.later hShown hStep hFirst)
      · exact Or.inr ⟨cause, span, refused, rfl, .later hShown hStep hFirst, st',
          .head hStep hReaches, hAt⟩
    | some e₁ =>
      have hReaches : s.Reaches st₁ last := .head hStep hRest
      by_cases hStopped : ∃ e', st₁.focus = .failed e'
      · -- The evaluation has stopped, and the failure stays the same.
        obtain ⟨e', hStopped⟩ := hStopped
        have hSame := hReaches.failed hStopped
        rw [hFailed, Focus.failed.injEq] at hSame
        exact Or.inl (.shown (failure?_of_failed (hSame ▸ hStopped)))
      · have hFocus : ∀ e', st₁.focus ≠ .failed e' := fun e' hEq => hStopped ⟨e', hEq⟩
        -- Here it is the recording that has failed, and the evaluation goes on.
        obtain ⟨cause, hError, rfl⟩ := recorder_error_of_failure? hShown (hFocus e₁)
        rcases hReaches.reported hError hFocus hFailed with rfl |
          ⟨span, refused, rfl, st', hLater, hAt⟩
        · exact Or.inl (.shown hShown)
        · exact Or.inr ⟨cause, span, refused, rfl, .shown hShown, st', hLater, hAt⟩

/-! ## The end of a capture -/

/-- With its outcome a capture has ended. -/
theorem step?_of_outcome? {outcome : Except CaptureError Trace} (h : st.outcome? = some outcome) :
    s.step? st = none := by
  obtain ⟨focus, frames, stack, r⟩ := st
  unfold outcome? at h
  split at h
  · rename_i t hFocus hFrames
    obtain rfl : focus = .closed t := hFocus
    rfl
  · rename_i e hFocus hFrames
    obtain rfl : focus = .failed e := hFocus
    obtain rfl : frames = [] := hFrames
    rfl
  · exact absurd h (by simp)

theorem focus_of_outcome? {e : CaptureError} (h : st.outcome? = some (.error e)) :
    st.focus = .failed e := by
  unfold outcome? at h
  split at h
  · exact absurd h (by simp)
  · rename_i e' hFocus hFrames
    obtain rfl : e' = e := by simpa using h
    exact hFocus
  · exact absurd h (by simp)

theorem outcome?_of_failed {e : CaptureError} {outcome : Except CaptureError Trace}
    (h : st.outcome? = some outcome) (hFailed : st.focus = .failed e) : outcome = .error e := by
  unfold outcome? at h
  rw [hFailed] at h
  split at h
  · rename_i hFocus _
    exact absurd hFocus (by simp)
  · rename_i e' hFocus hFrames
    rw [Focus.failed.inj hFocus]
    exact (Option.some.inj h).symm
  · exact absurd h (by simp)

/-- There is at most one first failure. -/
theorem FirstFailure.unique {e' : CaptureError} (h : s.FirstFailure st e)
    (h' : s.FirstFailure st e') : e = e' := by
  induction h with
  | shown hShown =>
    cases h' with
    | shown hShown' => exact Option.some.inj (hShown.symm.trans hShown')
    | later hNone _ _ => exact absurd (hNone.symm.trans hShown) (by simp)
  | later hNone hStep _ ih =>
    cases h' with
    | shown hShown => exact absurd (hNone.symm.trans hShown) (by simp)
    | later _ hStep' hRest =>
      obtain rfl := Option.some.inj (hStep.symm.trans hStep')
      exact ih hRest

variable {d : Definition} {shapes : List Shape}

/-- **A capture reports its first failure**, with one exception: where the recording has failed, and
the evaluation stops at a term later, the failure of the term is reported. -/
theorem capture_reports_failure (hd : d ∈ s.definitions) (h : s.capture d shapes = .error e) :
    s.FirstFailure (start d shapes) e ∨
      ∃ cause span refused, e = .term span refused ∧
        s.FirstFailure (start d shapes) (.recording cause) ∧
        ∃ st, s.Reaches (start d shapes) st ∧ st.focus = .failed e ∧
          st.recorder.error = some cause := by
  obtain ⟨last, hLast, hOutcome⟩ := reaches_capture hd shapes
  rw [h] at hOutcome
  exact hLast.firstFailure (focus_of_outcome? hOutcome)

/-- The function `fn f(x: [2], y: [3]) { let z = x + y return t }`, on four lines. -/
def returnAfterSum (t : Term) : Definition :=
  ⟨⟨"f", ⟨3, 4⟩⟩, [⟨⟨"x", ⟨5, 6⟩⟩, [2], ⟨5, 11⟩⟩, ⟨⟨"y", ⟨13, 14⟩⟩, [3], ⟨13, 19⟩⟩],
    [.bind ⟨25, 38⟩ ⟨"z", ⟨29, 30⟩⟩
      (.binary ⟨33, 38⟩ (.arith .add) (.var ⟨"x", ⟨33, 34⟩⟩) (.var ⟨"y", ⟨37, 38⟩⟩)),
      .result ⟨41, t.span.stop⟩ [t]], ⟨0, t.span.stop + 2⟩⟩

/-- The failure of its sum. -/
def unequalSummands : CaptureError := .recording (.elementwise "add" (.incompatible [2] [3]))

/-- The function that returns the negated sum. -/
def negatedSum : Definition := returnAfterSum (.neg ⟨48, 50⟩ (.var ⟨"z", ⟨49, 50⟩⟩))

/-- Its only failure is the one of the sum, and this is reported. -/
theorem capture_reports_failure_negatedSum :
    (⟨[negatedSum]⟩ : Script).FirstFailure (start negatedSum [[2], [3]]) unequalSummands := by
  have hCapture : (⟨[negatedSum]⟩ : Script).capture negatedSum [[2], [3]] =
      .error unequalSummands := rfl
  rcases capture_reports_failure (List.mem_singleton_self negatedSum) hCapture
    with hFirst | ⟨_, _, _, hTerm, -⟩
  · exact hFirst
  · exact absurd hTerm (by simp [unequalSummands])

/-- The function that returns `w`, which is no name of a value. -/
def unknownAfterSum : Definition := returnAfterSum (.var ⟨"w", ⟨48, 49⟩⟩)

/-- Where the recording has failed and a name is then unknown, the name is reported, although the
failure of the sum came first. -/
theorem capture_reports_later_failure :
    (⟨[unknownAfterSum]⟩ : Script).capture unknownAfterSum [[2], [3]] =
        .error (.term ⟨48, 49⟩ (.undefinedName "w")) ∧
      (⟨[unknownAfterSum]⟩ : Script).FirstFailure (start unknownAfterSum [[2], [3]])
        unequalSummands ∧
      ¬ (⟨[unknownAfterSum]⟩ : Script).FirstFailure (start unknownAfterSum [[2], [3]])
        (.term ⟨48, 49⟩ (.undefinedName "w")) := by
  -- The operands of the sum are entered in six steps, and the sixth one adds them.
  have hFirst : (⟨[unknownAfterSum]⟩ : Script).FirstFailure (start unknownAfterSum [[2], [3]])
      unequalSummands :=
    .later rfl rfl <| .later rfl rfl <| .later rfl rfl <| .later rfl rfl <| .later rfl rfl <|
      .later rfl rfl <| .shown rfl
  exact ⟨rfl, hFirst, fun hOther => absurd (hFirst.unique hOther) (by simp [unequalSummands])⟩

end ArrayEquations.Script
