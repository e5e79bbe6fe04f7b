import ArrayEquations.Derivative.Transform
import ArrayEquations.Proofs.FreshIndices
import ArrayEquations.Proofs.Recording
import ArrayEquations.Proofs.Tangent

/-!
# ArrayEquations — going on from a trace

A derivative goes on recording where a trace ended. The arguments it differentiates with
respect to are inputs of the trace, each named once, and a recording that ends without a
failure becomes a trace again.

## Main results

* `Trace.exists_selectArguments` — valid positions select arguments.
* `Trace.extend_eq_ok` — a recording without failures becomes a trace.
* `Trace.run_of_extend` — and nothing else does.
-/

namespace ArrayEquations

/-- The arguments that seeds become. -/
def seedArguments (seeds : List ValueId) : List Argument := seeds.map fun s => ⟨s, none, true⟩

theorem seedArguments_injective : Function.Injective seedArguments := by
  intro seeds seeds' h
  have hMap := congrArg (List.map (·.value)) h
  simpa [seedArguments, Function.comp_def] using hMap

namespace Trace

variable {t : Trace}

/-- What holds of the arguments with respect to which a trace is differentiated. -/
structure Selects (t : Trace) (wrt : List ValueId) : Prop where
  nodup : wrt.Nodup
  argument : ∀ a ∈ wrt, a ∈ t.arguments.map (·.value)
  nonempty : t.arguments ≠ [] → wrt ≠ []

theorem Selects.leaf (h : t.WellFormed) {wrt : List ValueId} (hSelects : t.Selects wrt)
    {a : ValueId} (ha : a ∈ wrt) : t.graph.get? a = some ⟨.leaf, t.graph.shape a⟩ := by
  obtain ⟨argument, hMem, rfl⟩ := List.mem_map.mp (hSelects.argument a ha)
  exact Graph.isLeaf_eq_true (h.leaf_of_argument argument hMem)

/-- Valid positions select arguments. -/
theorem exists_selectArguments (h : t.WellFormed) {positions : List Nat}
    (hPositions : ∀ p ∈ positions, p < t.arguments.length) :
    ∃ wrt, selectArguments t positions = .ok wrt ∧ t.Selects wrt := by
  -- No position stands for all arguments.
  by_cases hEmpty : positions.isEmpty = true
  · refine ⟨t.arguments.map (·.value), ?_, h.nodup_arguments, fun _ ha => ha, ?_⟩
    · rw [selectArguments, if_pos hEmpty]
      rfl
    · intro hArguments hNil
      exact hArguments (List.map_eq_nil_iff.mp hNil)
  · let value (p : Nat) : ValueId := ((t.arguments[p]?).map (·.value)).getD 0
    have hValue : ∀ p ∈ positions,
        ∃ a ∈ t.arguments, t.arguments[p]? = some a ∧ value p = a.value := by
      intro p hp
      have hLt := hPositions p hp
      refine ⟨t.arguments[p], List.getElem_mem hLt, List.getElem?_eq_getElem hLt, ?_⟩
      simp [value, hLt]
    refine ⟨(positions.map value).eraseDups, ?_, nodup_eraseDups _, ?_, ?_⟩
    · rw [selectArguments, if_neg hEmpty]
      refine congrArg (· >>= fun values => pure values.eraseDups) (mapM_eq_ok (g := value) ?_)
      intro p hp
      obtain ⟨a, -, hGet, hEq⟩ := hValue p hp
      rw [hGet, hEq]
      rfl
    · intro v hv
      obtain ⟨p, hp, rfl⟩ := List.mem_map.mp (List.mem_eraseDups.mp hv)
      obtain ⟨a, ha, -, hEq⟩ := hValue p hp
      exact List.mem_map.mpr ⟨a, ha, hEq.symm⟩
    · intro _ hNil
      cases positions with
      | nil => exact hEmpty rfl
      | cons p positions =>
        have hMem : value p ∈ ((p :: positions).map value).eraseDups :=
          List.mem_eraseDups.mpr (by simp)
        rw [hNil] at hMem
        exact absurd hMem List.not_mem_nil

/-- Only arguments are selected. -/
theorem selects_of_selectArguments (h : t.WellFormed) {positions : List Nat} {wrt : List ValueId}
    (hSelect : selectArguments t positions = .ok wrt) : t.Selects wrt := by
  have hPositions : ∀ p ∈ positions, p < t.arguments.length := by
    by_cases hEmpty : positions.isEmpty = true
    · intro p hp
      rw [List.isEmpty_iff.mp hEmpty] at hp
      exact absurd hp List.not_mem_nil
    · rw [selectArguments, if_neg hEmpty] at hSelect
      obtain ⟨values, hValues, -⟩ := bind_eq_ok hSelect
      intro p hp
      by_contra hLt
      obtain ⟨v, -, hv⟩ := exists_beside_of_forall₂ (forall₂_of_mapM_eq_ok hValues).flip hp
      rw [List.getElem?_eq_none (Nat.not_lt.mp hLt)] at hv
      exact absurd hv (by simp [throw, throwThe, MonadExceptOf.throw])
  obtain ⟨wrt', hSelect', hSelects⟩ := exists_selectArguments h hPositions
  obtain rfl := Except.ok.inj (hSelect.symm.trans hSelect')
  exact hSelects

/-- The recorder from which a derivative goes on. -/
def recorder (t : Trace) : Recorder := ⟨t.graph, t.arguments, t.bindings, t.tags, none⟩

theorem resume_eq_ok (h : t.WellFormed) : Recorder.resume t = .ok t.recorder := by
  rw [Recorder.resume, h.bindings]
  rfl

/-- A recording that goes on from a trace without failures becomes a trace. -/
theorem extend_eq_ok (h : t.WellFormed) {action : Differentiating (List ValueId)}
    {outputs : List ValueId} {added : List Argument} {r : Recorder}
    (hRun : action.run t.recorder = (.ok outputs, r)) (hExtends : t.recorder.Extends r added)
    (hNonempty : outputs ≠ []) (hLt : ∀ o ∈ outputs, o < r.graph.size) :
    t.extend action = .ok ⟨t.name, r.graph, r.arguments, r.bindings, r.tags, outputs⟩ := by
  have hFind : outputs.find? (!r.graph.has ·) = none := by
    rw [List.find?_eq_none]
    intro o ho
    simpa [Graph.has] using hLt o ho
  have hFinish : r.finish t.name outputs =
      .ok ⟨t.name, r.graph, r.arguments, r.bindings, r.tags, outputs⟩ := by
    rw [Recorder.finish, hExtends.error]
    show (if outputs.isEmpty then _ else _) = _
    rw [if_neg (by simpa using hNonempty), hFind]
  rw [extend, resume_eq_ok h]
  simp only [Except.mapError, bind, Except.bind, StateT.run]
  rw [hRun]
  simp only [hFinish]

/-- What becomes a trace goes on from the trace, and is closed without a failure. -/
theorem exists_run_of_extend {action : Differentiating (List ValueId)} {t' : Trace}
    (hExtend : t.extend action = .ok t') :
    ∃ r r', Recorder.resume t = .ok r ∧ action.run r = (.ok t'.outputs, r') ∧
      t'.outputs ≠ [] ∧ (∀ o ∈ t'.outputs, o < r'.graph.size) ∧
        t' = ⟨t.name, r'.graph, r'.arguments, r'.bindings, r'.tags, t'.outputs⟩ := by
  rw [extend] at hExtend
  obtain ⟨r, hResume, hExtend⟩ := bind_eq_ok hExtend
  have hResumed : Recorder.resume t = .ok r := mapError_eq_ok hResume
  -- An extension stops at the first of three errors: resuming, recording, or closing.
  cases hRun : action.run r with
  | mk result r' =>
    simp only [StateT.run, hRun, Except.mapError, bind, Except.bind] at hExtend
    cases result with
    | error e => exact absurd hExtend (by simp)
    | ok outputs =>
      simp only at hExtend
      cases hFinish : r'.finish t.name outputs with
      | error e =>
        rw [hFinish] at hExtend
        exact absurd hExtend (by simp)
      | ok t'' =>
        rw [hFinish] at hExtend
        obtain rfl := Except.ok.inj hExtend
        obtain ⟨-, hNonempty, hLt, rfl⟩ := Recorder.finish_eq_ok hFinish
        exact ⟨r, r', hResumed, hRun, hNonempty, hLt, rfl⟩

/-- What becomes a trace has values of its graph as outputs. -/
theorem output_lt_of_extend {action : Differentiating (List ValueId)} {t' : Trace}
    (hExtend : t.extend action = .ok t') : ∀ o ∈ t'.outputs, o < t'.graph.size := by
  obtain ⟨-, r, -, -, -, hLt, hEq⟩ := exists_run_of_extend hExtend
  rw [hEq]
  exact hLt

/-- What becomes a trace was recorded without an error, and has outputs. -/
theorem run_of_extend (h : t.WellFormed) {action : Differentiating (List ValueId)} {t' : Trace}
    (hExtend : t.extend action = .ok t') :
    ∃ r, action.run t.recorder = (.ok t'.outputs, r) ∧ t'.graph = r.graph ∧
      t'.arguments = r.arguments ∧ t'.outputs ≠ [] := by
  obtain ⟨r, r', hResume, hRun, hNonempty, -, hEq⟩ := exists_run_of_extend hExtend
  obtain rfl := Except.ok.inj ((resume_eq_ok h).symm.trans hResume)
  exact ⟨r', hRun, congrArg Trace.graph hEq, congrArg Trace.arguments hEq, hNonempty⟩

/-- The same for all parts of the trace, which the recorder ended with. -/
theorem recorder_of_extend (h : t.WellFormed) {action : Differentiating (List ValueId)} {t' : Trace}
    (hExtend : t.extend action = .ok t') :
    ∃ r, action.run t.recorder = (.ok t'.outputs, r) ∧
      t' = ⟨t.name, r.graph, r.arguments, r.bindings, r.tags, t'.outputs⟩ := by
  obtain ⟨r, r', hResume, hRun, -, -, hEq⟩ := exists_run_of_extend hExtend
  obtain rfl := Except.ok.inj ((resume_eq_ok h).symm.trans hResume)
  exact ⟨r', hRun, hEq⟩

/-! ## The derivatives -/

theorem exists_selectArguments_of_differentiate {mode : Mode} {positions : List Nat} {t' : Trace}
    (h : t.differentiate mode positions = .ok t') :
    ∃ wrt, selectArguments t positions = .ok wrt := by
  obtain ⟨wrt, hSelect, -⟩ := bind_eq_ok h
  exact ⟨wrt, hSelect⟩

section Selected

variable {positions : List Nat} {wrt : List ValueId}

theorem differentiate_jvp (hSelect : selectArguments t positions = .ok wrt) :
    t.differentiate .jvp positions = t.extend (recordForward t.graph wrt t.outputs) := by
  rw [differentiate, hSelect]
  rfl

theorem differentiate_vjp (hSelect : selectArguments t positions = .ok wrt) :
    t.differentiate .vjp positions =
      t.extend (recordReverse t.graph (t.bindings.map (·.value)) wrt t.outputs false) := by
  rw [differentiate, hSelect]
  rfl

theorem differentiate_grad (hSelect : selectArguments t positions = .ok wrt)
    (hScalar : t.hasScalarOutput = true) :
    t.differentiate .grad positions =
      t.extend (recordReverse t.graph (t.bindings.map (·.value)) wrt t.outputs true) := by
  have hAsked : ¬ (decide (Mode.grad = .grad) && !t.hasScalarOutput) = true := by
    rw [hScalar]
    exact Bool.false_ne_true
  rw [differentiate, hSelect]
  exact if_neg hAsked

theorem hasScalarOutput_of_eq {o : ValueId} (hOutput : t.outputs = [o])
    (hScalar : t.graph.shape o = []) : t.hasScalarOutput = true := by
  rw [hasScalarOutput, hOutput]
  simp [hScalar]

/-- Only functions with one number as their output have a gradient. -/
theorem hasScalarOutput_of_grad {t' : Trace} (h : t.differentiate .grad positions = .ok t') :
    t.hasScalarOutput = true := by
  obtain ⟨wrt, hSelect⟩ := exists_selectArguments_of_differentiate h
  by_contra hScalar
  have hAsked : (decide (Mode.grad = .grad) && !t.hasScalarOutput) = true := by
    simpa using hScalar
  have hThrown : t.differentiate .grad positions = .error (.notScalar t.name) := by
    rw [differentiate, hSelect]
    exact if_pos hAsked
  exact absurd (hThrown.symm.trans h) (by simp)

end Selected

end Trace

/-- A reading over the rational numbers. What is recorded does not depend on the reading, so any
one shows it. -/
def plainReading : Interpretation ℚ where
  literal _ := 1
  div := (· / ·)
  pow _ _ := 0
  call _ _ := 0
  indicator _ _ _ := 0
  foreign _ _ _ _ := 0

/-! ## An example -/

/-- A document of the sum of two cubes. -/
def sumOfCubesDraft : TraceDraft where
  name := "cubes"
  arguments := [⟨0, some "x", false⟩]
  values := [.leaf 0 [2], .literal 1 3, .op 2 "pow" [0, 1] [2] {},
    .op 3 "reduce_sum" [2] [] { axes := some [0] }]
  bindings := []
  tags := []
  outputs := [3]

/-- The trace of that document. -/
def sumOfCubes : Trace where
  name := "cubes"
  graph := ⟨#[⟨.leaf, [2]⟩, ⟨.literal 3, []⟩, ⟨.op (.arith .pow) [0, 1], [2]⟩,
    ⟨.op (.reduceSum [0]) [2], []⟩]⟩
  arguments := [⟨0, some "x", false⟩]
  bindings := []
  tags := []
  outputs := [3]

theorem sumOfCubes_ofDraft : Trace.ofDraft sumOfCubesDraft = .ok sumOfCubes := by decide

theorem sumOfCubes_recorded : sumOfCubes.graph.Recorded := by
  intro v op operands s hGet hElementwise w hw hLiteral
  have hv : v < 4 := Graph.lt_size_of_get? hGet
  match v, hv with
  | 0, _ => exact absurd hGet (by simp [sumOfCubes, Graph.get?])
  | 1, _ => exact absurd hGet (by simp [sumOfCubes, Graph.get?])
  | 2, _ =>
    obtain ⟨⟨rfl, rfl⟩, rfl⟩ : (Operation.arith .pow = op ∧ [0, 1] = operands) ∧ [2] = s := by
      simpa [sumOfCubes, Graph.get?] using hGet
    rcases List.mem_pair.mp hw with rfl | rfl
    · rfl
    · exact absurd hLiteral (by decide)
  | 3, _ =>
    obtain ⟨⟨rfl, rfl⟩, rfl⟩ : (Operation.reduceSum [0] = op ∧ [2] = operands) ∧ [] = s := by
      simpa [sumOfCubes, Graph.get?] using hGet
    exact absurd hElementwise (by decide)

theorem sumOfCubes_hasRules : sumOfCubes.graph.HasRules := by
  intro v name operands hOp
  have hGet := Graph.op?_eq_some hOp
  have hv : v < 4 := Graph.lt_size_of_get? hGet
  match v, hv with
  | 0, _ => exact absurd hGet (by simp [sumOfCubes, Graph.get?])
  | 1, _ => exact absurd hGet (by simp [sumOfCubes, Graph.get?])
  | 2, _ => exact absurd hGet (by simp [sumOfCubes, Graph.get?])
  | 3, _ => exact absurd hGet (by simp [sumOfCubes, Graph.get?])

/-- Exact arithmetic for small constants and powers. -/
def smallArithmetic : Interpretation ℚ where
  literal x := if x == 1 then 1 else if x == 2 then 2 else if x == 3 then 3 else 0
  div := (· / ·)
  pow a b := if b = 1 then a else if b = 2 then a * a else if b = 3 then a * a * a else 0
  call _ _ := 0
  indicator _ _ _ := 0
  foreign _ _ _ _ := 0

theorem smallArithmetic_exact : smallArithmetic.Exact where
  literal_zero := by decide
  literal_one x h := by simp [smallArithmetic, h]
  literal_two := by decide
  div_eq _ _ := rfl
  pow_one a := by simp [smallArithmetic]
  pow_two a := by simp [smallArithmetic]

theorem sumOfCubes_exactExponents : sumOfCubes.graph.ExactExponents smallArithmetic := by
  intro v a b s c hGet hLiteral
  have hv : v < 4 := Graph.lt_size_of_get? hGet
  match v, hv with
  | 0, _ => exact absurd hGet (by simp [sumOfCubes, Graph.get?])
  | 1, _ => exact absurd hGet (by simp [sumOfCubes, Graph.get?])
  | 3, _ => exact absurd hGet (by simp [sumOfCubes, Graph.get?])
  | 2, _ =>
    obtain ⟨⟨rfl, rfl⟩, rfl⟩ : (0 = a ∧ 1 = b) ∧ [2] = s := by
      simpa [sumOfCubes, Graph.get?] using hGet
    obtain rfl : 3 = c := Option.some.inj hLiteral
    have hThree : smallArithmetic.literal 3 = 3 := by decide
    have hTwo : smallArithmetic.literal (3 - 1) = 2 := by decide
    rw [Interpretation.ExactExponent, hThree, hTwo]
    norm_num

end ArrayEquations
