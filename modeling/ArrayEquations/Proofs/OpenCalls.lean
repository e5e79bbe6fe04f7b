import ArrayEquations.Proofs.CaptureFailures

/-!
# ArrayEquations — capturing ends

A call leads from a term to a whole body, so the terms that are entered do not get smaller. But a
call of a function that is open is refused, and so the calls that are open at a time are of distinct
functions of the script. Between the check of a call and its opening its arguments are evaluated,
and calls in them are opened and closed; what waits knows which functions were free.

## Main definitions

* `Frame.Fits` — what waits may go on in the frame, with the calls outside of it open.
* `CaptureState.Orderly` — the open calls are those of the frames, of distinct functions.

## Main results

* `CaptureState.Orderly.step` — a step keeps the order.
* `capture_ends` — a capture ends, with distinct functions open all the time; it is refused as
  recursive if and only if it comes to a call of a function that is open.
-/

namespace ArrayEquations.Script

open CaptureState

/-! ## The calls of frames -/

/-- The functions whose bodies are inside the frames, innermost first. -/
def openedBy (frames : List Frame) : List String := frames.filterMap Frame.opened?

/-- A row of arguments is that of a function of the script that is not open. -/
def RowUse.Fits (s : Script) (stack : List String) : RowUse → Prop
  | .call d _ => d ∈ s.definitions ∧ d.name.name ∉ stack
  | .primitive _ | .result => True

/-- The call of the frame, or the call that the frame is to open, is of a function of the script
that is not open outside. -/
def Frame.Fits (s : Script) (outside : List String) : Frame → Prop
  | .call d _ => d ∈ s.definitions ∧ d.name.name ∉ outside
  | .item use _ _ _ => use.Fits s outside
  | .entry name => name ∈ s.definitions.map (·.name.name) ∧ name ∉ outside
  | _ => True

/-- Each frame fits into those outside of it. -/
def Nested (s : Script) : List Frame → Prop
  | [] => True
  | frame :: frames => frame.Fits s (openedBy frames) ∧ Nested s frames

variable {s : Script} {st st' : CaptureState} {d : Definition} {frame : Frame}
  {frames : List Frame}

/-- **Nested frames are those of distinct functions of the script.** -/
theorem Nested.openCalls (h : Nested s frames) : s.OpenCalls (openedBy frames) := by
  induction frames with
  | nil => exact ⟨List.nodup_nil, by simp [openedBy]⟩
  | cons frame frames ih =>
    obtain ⟨hFits, hNested⟩ := h
    have hOpen := ih hNested
    cases frame with
    | call d span => exact hOpen.cons hFits.1 hFits.2
    | entry name =>
      exact ⟨List.nodup_cons.mpr ⟨hFits.2, hOpen.nodup⟩,
        List.forall_mem_cons.mpr ⟨hFits.1, hOpen.function⟩⟩
    | neg | rhs | binary | named | builtin | item | bind => exact hOpen

/-! ## Order -/

namespace CaptureState

/-- The open calls are those of the frames, the frames are nested, and arguments that are evaluated
are those of a function that is not open. -/
structure Orderly (s : Script) (st : CaptureState) : Prop where
  stack : st.stack = openedBy st.frames
  frames : Nested s st.frames
  row : ∀ use scope done rest, st.focus = .row use scope done rest → use.Fits s st.stack

theorem orderly_start (hd : d ∈ s.definitions) (shapes : List Shape) :
    (start d shapes).Orderly s := by
  unfold start
  split
  · exact ⟨rfl, trivial, by simp⟩
  · refine ⟨rfl, ⟨⟨List.mem_map.mpr ⟨d, hd, rfl⟩, List.not_mem_nil⟩, trivial⟩, by simp⟩

/-- After an action there is no row of arguments. -/
theorem orderly_ended {stack : List String} (hStack : stack = openedBy frames)
    (hFrames : Nested s frames) (result : Except CaptureError ValueId × Recorder) :
    (ended frames stack result).Orderly s := by
  obtain ⟨e | v, r⟩ := result <;> exact ⟨hStack, hFrames, by simp [ended]⟩

namespace Orderly

theorem perform (h : st.Orderly s) (a : Evaluation ValueId) : (st.perform a).Orderly s :=
  orderly_ended h.stack h.frames _

/-- A frame that opens no call is put in front. -/
theorem await (h : st.Orderly s) {focus : Focus} (hFrame : frame.opened? = none)
    (hFits : frame.Fits s st.stack)
    (hFocus : ∀ use scope done rest, focus ≠ .row use scope done rest) :
    (st.await frame focus).Orderly s := by
  refine ⟨?_, ⟨h.stack ▸ hFits, h.frames⟩, fun use scope done rest hRow => ?_⟩
  · show st.stack = openedBy (frame :: st.frames)
    rw [openedBy, List.filterMap_cons_none hFrame]
    exact h.stack
  · exact absurd hRow (hFocus use scope done rest)

/-- The focus changes, and the frames stay. -/
theorem refocus (h : st.Orderly s) {focus : Focus}
    (hRow : ∀ use scope done rest, focus = .row use scope done rest → use.Fits s st.stack) :
    Orderly s { st with focus := focus } := ⟨h.stack, h.frames, hRow⟩

/-- A frame that opens no call is taken off. -/
theorem drop (h : st.Orderly s) (hFrames : st.frames = frame :: frames)
    (hFrame : frame.opened? = none) :
    st.stack = openedBy frames ∧ Nested s frames ∧ frame.Fits s st.stack := by
  obtain ⟨hStack, hNested, -⟩ := h
  rw [hFrames] at hStack hNested
  rw [openedBy, List.filterMap_cons_none hFrame] at hStack
  exact ⟨hStack, hNested.2, hStack ▸ hNested.1⟩

/-- A frame that is an open call is taken off, and the call is closed. -/
theorem close (h : st.Orderly s) (hFrames : st.frames = frame :: frames) {name : String}
    (hFrame : frame.opened? = some name) : st.stack.tail = openedBy frames ∧ Nested s frames := by
  obtain ⟨hStack, hNested, -⟩ := h
  rw [hFrames] at hStack hNested
  rw [openedBy, List.filterMap_cons_some hFrame] at hStack
  exact ⟨by rw [hStack]; rfl, hNested.2⟩

theorem enter (h : st.Orderly s) (scope : Scope) (t : Term) : (s.enter st scope t).Orderly s := by
  cases t with
  | number span x => exact h.perform _
  | dims span ns => exact h.perform _
  | var name => exact h.perform _
  | neg span operand => exact h.await rfl trivial (by simp)
  | binary span op lhs rhs => exact h.await rfl trivial (by simp)
  | named span value name dependsOn => exact h.await rfl trivial (by simp)
  | call span callee arguments =>
    rw [Script.enter]
    split
    · rename_i d hFind
      split
      · exact h.perform _
      · split
        · exact h.perform _
        · rename_i hOpen _
          -- The function is not open: here this is checked.
          refine h.refocus fun use scope done rest hRow => ?_
          obtain ⟨rfl, -, -, -⟩ := Focus.row.inj hRow
          exact ⟨List.mem_of_find?_eq_some hFind, by simpa using hOpen⟩
    · split
      · split
        · split
          · exact h.perform _
          · exact h.await rfl trivial (by simp)
        · exact h.perform _
      · refine h.refocus fun use scope done rest hRow => ?_
        obtain ⟨rfl, -, -, -⟩ := Focus.row.inj hRow
        trivial

/-- The arguments have their values, and the call is opened. -/
theorem useRow (h : st.Orderly s) {use : RowUse} {scope : Scope} {done rest : List _}
    (hFocus : st.focus = .row use scope done rest) (vs : List ValueId) :
    (Script.useRow st vs use).Orderly s := by
  have hFits := h.row use scope done rest hFocus
  cases use with
  | call d span =>
    refine ⟨?_, ⟨h.stack ▸ hFits, h.frames⟩, by simp [Script.useRow]⟩
    show d.name.name :: st.stack = d.name.name :: openedBy st.frames
    rw [h.stack]
  | primitive name => exact h.perform _
  | result => exact h.refocus (by simp)

theorem take (h : st.Orderly s) (hFrames : st.frames = frame :: frames) {v : ValueId}
    (hTake : Script.take { st with frames := frames } v frame = some st') : st'.Orderly s := by
  cases frame with
  | neg | binary | named | builtin =>
    obtain ⟨hStack, hNested, -⟩ := h.drop hFrames rfl
    obtain rfl := Option.some.inj hTake
    exact orderly_ended hStack hNested _
  -- The right operand is evaluated next, with its frame on top.
  | rhs op scope rhs =>
    obtain ⟨hStack, hNested, -⟩ := h.drop hFrames rfl
    obtain rfl := Option.some.inj hTake
    exact ⟨hStack, ⟨trivial, hNested⟩, by simp [CaptureState.await]⟩
  | item use scope done rest =>
    obtain ⟨hStack, hNested, hFits⟩ := h.drop hFrames rfl
    obtain rfl := Option.some.inj hTake
    refine ⟨hStack, hNested, fun use' scope' done' rest' hRow => ?_⟩
    obtain ⟨rfl, -, -, -⟩ := Focus.row.inj hRow
    exact hFits
  | bind d scope name rest =>
    obtain ⟨hStack, hNested, -⟩ := h.drop hFrames rfl
    obtain rfl := Option.some.inj hTake
    exact ⟨hStack, hNested, by simp⟩
  | call d span => exact absurd hTake (by simp [Script.take])
  | entry name => exact absurd hTake (by simp [Script.take])

theorem takeResult (h : st.Orderly s) (hFrames : st.frames = frame :: frames) {vs : List ValueId}
    (hTake : Script.takeResult { st with frames := frames } vs frame = some st') :
    st'.Orderly s := by
  unfold Script.takeResult at hTake
  split at hTake
  · obtain ⟨hStack, hNested⟩ := h.close hFrames rfl
    obtain rfl := Option.some.inj hTake
    exact orderly_ended hStack hNested _
  · obtain ⟨hStack, hNested⟩ := h.close hFrames rfl
    obtain rfl := Option.some.inj hTake
    dsimp only
    cases st.recorder.finish _ vs <;> exact ⟨hStack, hNested, by simp [closing]⟩
  · exact absurd hTake (by simp)

/-- **A step keeps the order.** -/
theorem step (h : st.Orderly s) (hStep : s.step? st = some st') : st'.Orderly s := by
  unfold step? at hStep
  split at hStep
  · obtain rfl := Option.some.inj hStep
    exact h.enter _ _
  · rename_i use scope done t rest hFocus
    obtain rfl := Option.some.inj hStep
    exact h.await rfl (h.row _ _ _ _ hFocus) (by simp)
  · rename_i use scope done hFocus
    obtain rfl := Option.some.inj hStep
    exact h.useRow hFocus done
  · rename_i d scope rest hFocus
    obtain rfl := Option.some.inj hStep
    cases rest with
    | nil => exact h.perform _
    | cons statement rest =>
      cases statement with
      | bind span name value => exact h.await rfl trivial (by simp)
      | result span values =>
        refine h.refocus fun use scope done rest hRow => ?_
        obtain ⟨rfl, -, -, -⟩ := Focus.row.inj hRow
        trivial
  · rename_i v frame frames hFocus hFrames
    exact h.take hFrames hStep
  · rename_i vs frame frames hFocus hFrames
    exact h.takeResult hFrames hStep
  · rename_i e frame frames hFocus hFrames
    obtain rfl := Option.some.inj hStep
    -- A failure unwinds the frames, and leaving a function closes its call.
    cases hOpened : frame.opened? with
    | none =>
      obtain ⟨hStack, hNested, -⟩ := h.drop hFrames hOpened
      exact ⟨hStack, hNested, by simp [hFocus]⟩
    | some name =>
      obtain ⟨hStack, hNested⟩ := h.close hFrames hOpened
      exact ⟨hStack, hNested, by simp [hFocus]⟩
  all_goals exact absurd hStep (by simp)

/-- So does a run. -/
theorem reaches (h : st.Orderly s) (hReaches : s.Reaches st st') : st'.Orderly s := by
  induction hReaches with
  | refl => exact h
  | tail _ hStep ih => exact ih.step hStep

theorem openCalls (h : st.Orderly s) : s.OpenCalls st.stack := h.stack ▸ h.frames.openCalls

end Orderly

end CaptureState

/-! ## The end of a capture -/

/-- From a state that leads to an end there is no endless run. -/
theorem Reaches.no_endless_run {last : CaptureState} (h : s.Reaches st last)
    (hEnd : s.step? last = none) :
    ¬ ∃ run : Nat → CaptureState, run 0 = st ∧ ∀ n, s.step? (run n) = some (run (n + 1)) := by
  rintro ⟨run, hFirst, hRun⟩
  induction h using Relation.ReflTransGen.head_induction_on generalizing run with
  | refl =>
    have hStep := hRun 0
    rw [hFirst, hEnd] at hStep
    exact absurd hStep (by simp)
  | head hStep _ ih =>
    -- The run begins with the step towards the end, so the run behind it is endless too.
    have hNext := hRun 0
    rw [hFirst, hStep] at hNext
    exact ih (fun n => run (n + 1)) (Option.some.inj hNext).symm fun n => hRun (n + 1)

/-- What follows from a state on a way to an end is on this way. -/
theorem Reaches.to_end {last : CaptureState} (h : s.Reaches st last) (hEnd : s.step? last = none)
    (h' : s.Reaches st st') : s.Reaches st' last := by
  induction h' with
  | refl => exact h
  | @tail st₁ st₂ _ hStep ih =>
    rcases Relation.ReflTransGen.cases_head ih with rfl | ⟨st₃, hStep', hRest⟩
    · exact absurd (hEnd.symm.trans hStep) (by simp)
    · obtain rfl : st₂ = st₃ := Option.some.inj (hStep.symm.trans hStep')
      exact hRest

/-- A call of a function that is open is refused. -/
theorem step_of_calls {name : String} {span : Span} (hOpen : s.OpenCalls st.stack)
    (hCalls : st.Calls name span) (hMem : name ∈ st.stack) :
    ∃ st', s.step? st = some st' ∧ st'.focus = .failed (.term span (.recursiveCall name)) := by
  obtain ⟨focus, frames, stack, r⟩ := st
  obtain ⟨scope, place, arguments, rfl⟩ := hCalls
  -- What is open is a function of the script, so the call is found to be of one.
  obtain ⟨d, hd, hName⟩ := List.mem_map.mp (hOpen.function name hMem)
  obtain ⟨d', hFind⟩ : ∃ d', s.definitions.find? (·.name.name == name) = some d' :=
    Option.isSome_iff_exists.mp (List.find?_isSome.mpr ⟨d, hd, by simp [hName]⟩)
  have hName' : d'.name.name = name := by simpa using List.find?_some hFind
  refine ⟨_, rfl, ?_⟩
  rw [enter, hFind]
  dsimp only
  rw [hName', if_pos (by simpa using hMem)]
  rfl

/-- **Capturing ends.** There is no endless run of the steps of a capture, and the last state has
its outcome. In every state the open calls are of distinct functions of the script, so there are no
more of them than functions. A capture is refused as recursive if and only if it comes to a call of
a function that is open. -/
theorem capture_ends (hd : d ∈ s.definitions) (shapes : List Shape) :
    (¬ ∃ run : Nat → CaptureState,
      run 0 = start d shapes ∧ ∀ n, s.step? (run n) = some (run (n + 1))) ∧
    (∃ last, s.Reaches (start d shapes) last ∧ last.outcome? = some (s.capture d shapes)) ∧
    (∀ st, s.Reaches (start d shapes) st → st.stack = openedBy st.frames ∧ st.stack.Nodup ∧
      (∀ name ∈ st.stack, ∃ f ∈ s.definitions, f.name.name = name) ∧
      st.stack.length ≤ s.definitions.length) ∧
    ∀ name span, s.capture d shapes = .error (.term span (.recursiveCall name)) ↔
      ∃ st, s.Reaches (start d shapes) st ∧ st.Calls name span ∧ name ∈ st.stack := by
  obtain ⟨last, hLast, hOutcome⟩ := reaches_capture hd shapes
  have hEnd : s.step? last = none := step?_of_outcome? hOutcome
  have hOrderly : ∀ st, s.Reaches (start d shapes) st → st.Orderly s :=
    fun st hReaches => (orderly_start hd shapes).reaches hReaches
  refine ⟨hLast.no_endless_run hEnd, ⟨last, hLast, hOutcome⟩, fun st hReaches => ?_,
    fun name span => ⟨fun hCapture => ?_, ?_⟩⟩
  · have hOpen := (hOrderly st hReaches).openCalls
    exact ⟨(hOrderly st hReaches).stack, hOpen.nodup,
      fun name hMem => List.mem_map.mp (hOpen.function name hMem), hOpen.length_le⟩
  · rw [hCapture] at hOutcome
    -- The refusal is no failure of the start, so there is a step that refuses the call.
    rcases hLast.exists_step_to_failed (focus_of_outcome? hOutcome) with hStart |
      ⟨st₁, st₂, hReaches, hStep, hBefore, hAfter⟩
    · unfold start at hStart
      split at hStart <;> exact absurd hStart (by simp)
    · rcases failed_of_step hStep hAfter with hSame | ⟨_, _, cause, hCause, -⟩ |
        ⟨span', cause, hCause, hRefuse⟩
      · exact absurd hSame hBefore
      · exact absurd hCause (by simp)
      · obtain ⟨rfl, rfl⟩ := CaptureError.term.inj hCause
        exact ⟨st₁, hReaches, hRefuse name rfl⟩
  · rintro ⟨st, hReaches, hCalls, hMem⟩
    -- The state after this call is on the way to the end, and its failure stays.
    obtain ⟨st', hStep, hFailed⟩ := step_of_calls (hOrderly st hReaches).openCalls hCalls hMem
    have hRest : s.Reaches st' last := hLast.to_end hEnd (hReaches.tail hStep)
    exact outcome?_of_failed hOutcome (hRest.failed hFailed)

/-- The script `fn f(x) { return g(x) }` with `fn g(x) { return f(x) }` on the next line. -/
def mutualCalls : Script :=
  let x (start : Nat) : Identifier := ⟨"x", ⟨start, start + 1⟩⟩
  ⟨[⟨⟨"f", ⟨3, 4⟩⟩, [⟨x 5, [], ⟨5, 6⟩⟩],
      [.result ⟨10, 21⟩ [.call ⟨17, 21⟩ ⟨"g", ⟨17, 18⟩⟩ [.var (x 19)]]], ⟨0, 23⟩⟩,
    ⟨⟨"g", ⟨27, 28⟩⟩, [⟨x 29, [], ⟨29, 30⟩⟩],
      [.result ⟨34, 45⟩ [.call ⟨41, 45⟩ ⟨"f", ⟨41, 42⟩⟩ [.var (x 43)]]], ⟨24, 47⟩⟩]⟩

/-- Two functions that call each other: the second call is refused, with both of them open. -/
theorem capture_ends_mutualCalls : ∃ d ∈ mutualCalls.definitions, ∃ st,
    mutualCalls.Reaches (start d [[]]) st ∧ st.Calls "f" ⟨41, 42⟩ ∧ "f" ∈ st.stack :=
  ⟨_, List.mem_cons_self, ((capture_ends List.mem_cons_self [[]]).2.2.2 "f" ⟨41, 42⟩).mp rfl⟩

end ArrayEquations.Script
