import ArrayEquations.Proofs.CheckedRecorder
import ArrayEquations.Proofs.ImportedTrace

/-!
# ArrayEquations — imports with every access checked

An import reads the operands of a primitive by their places in the list: two for a matrix product,
one for the primitives whose parameters or shapes follow from an operand. It asks for the number of
operands before that. In this module the reads are checked, and no document makes one of them fail,
whether it is a trace or not.

## Main definitions

* `Checked.importValue` — the value of a draft.
* `Checked.checkArguments` — whether the arguments are inputs, each listed once.
* `Checked.ofDraft`, `Checked.ofText` — the trace of a draft and of a document's text.

## Main results

* `Checked.matches_ofDraft`, `Checked.matches_ofText` — no access of an import fails.
-/

namespace ArrayEquations

namespace Checked

/-! ## Operations of a document -/

/-- The operation of a family with the parameters given; whether there are as many operands as it
takes was asked before. -/
def operationOf (primitive : String) (family : Family) (p : ParameterDraft)
    (operands : List Shape) : Checked ImportError Operation :=
  match family with
  | .matmul => do
    let first ← item? operands 0
    let second ← item? operands 1
    let axes ← matmulAxes? first.rank second.rank
    return .contract axes
  | .reduceSum =>
    match p.axes with
    | some axes => return .reduceSum axes
    | none => do
      let first ← item? operands 0
      return .reduceSum first.axes
  | .transpose =>
    match p.permutation with
    | some permutation => return .transpose permutation
    | none => do
      let first ← item? operands 0
      return .transpose first.axes.reverse
  | family => ArrayEquations.operationOf primitive family p operands

/-- The operation of a primitive with the parameters given. -/
def importOperation (primitive : String) (p : ParameterDraft) (operands : List Shape) :
    Checked ImportError Operation :=
  match primitive? primitive with
  | none => return .foreign primitive
  | some spec =>
    if operands.length ≠ spec.arity then
      throw (.operandCount primitive spec.arity operands.length)
    else operationOf primitive spec.family p operands

/-- Whether the shape stated is the one that follows from the operands. -/
def checkInferredShape (id : ValueId) (op : Operation) (operands : List Shape) (stated : Shape) :
    Checked ImportError Unit := do
  let inferred ← (resultShape op operands).adapt (ImportError.shape id)
  if inferred = stated then pure () else throw (.shapeMismatch id op.name inferred stated)

/-- Whether an operation on the operands can have the shape stated. -/
def checkStatedShape (id : ValueId) (op : Operation) (operands : List Shape) (stated : Shape) :
    Checked ImportError Unit :=
  match op with
  | .broadcast dims => do
    let first ← item? operands 0
    (checkBroadcast first dims stated).adapt (.shape id)
  | .reshape => do
    let first ← item? operands 0
    liftM ((first.checkReshape stated).mapError (ImportError.shape id))
  | .foreign _ => pure ()
  | op => checkInferredShape id op operands stated

theorem matches_operationOf (primitive : String) {family : Family} (p : ParameterDraft)
    {operands : List Shape} (hArity : operands.length = familyArity family) :
    Matches (operationOf primitive family p operands)
      (ArrayEquations.operationOf primitive family p operands) := by
  cases family with
  | matmul =>
    obtain ⟨a, b, rfl⟩ := List.length_eq_two.mp hArity
    refine matches_access rfl (matches_access rfl ?_)
    exact matches_access (matmulAxes?_eq a.rank b.rank) (matches_pure _)
  | reduceSum =>
    obtain ⟨a, rfl⟩ := List.length_eq_one_iff.mp hArity
    unfold operationOf ArrayEquations.operationOf
    cases p.axes <;> exact matches_pure _
  | transpose =>
    obtain ⟨a, rfl⟩ := List.length_eq_one_iff.mp hArity
    unfold operationOf ArrayEquations.operationOf
    cases p.permutation <;> exact matches_pure _
  | _ => exact matches_lift _

theorem matches_importOperation (primitive : String) (p : ParameterDraft)
    (operands : List Shape) :
    Matches (importOperation primitive p operands)
      (ArrayEquations.importOperation primitive p operands) := by
  unfold importOperation ArrayEquations.importOperation
  cases hName : primitive? primitive with
  | none => exact matches_pure _
  | some spec =>
    have hTable : spec.arity = familyArity spec.family :=
      arity_of_primitives spec (List.mem_of_find?_eq_some hName)
    simp only
    split
    · exact matches_throw _
    · rename_i hArity
      exact matches_operationOf primitive p (by omega)

theorem matches_checkInferredShape (id : ValueId) (op : Operation) (operands : List Shape)
    (stated : Shape) :
    Matches (checkInferredShape id op operands stated)
      (match op.resultShape operands with
        | .error e => .error (.shape id e)
        | .ok inferred =>
          if inferred = stated then .ok ()
          else .error (.shapeMismatch id op.name inferred stated)) := by
  -- Written with a bind, the check falls into the two parts that are compared apart.
  have hSame : (match op.resultShape operands with
      | .error e => .error (.shape id e)
      | .ok inferred =>
        if inferred = stated then .ok ()
        else .error (.shapeMismatch id op.name inferred stated)) =
      (op.resultShape operands).mapError (ImportError.shape id) >>= fun inferred =>
        if inferred = stated then .ok ()
        else .error (.shapeMismatch id op.name inferred stated) := by
    cases op.resultShape operands <;> rfl
  rw [hSame]
  refine ((matches_resultShape op operands).adapt _).bind fun inferred _ => ?_
  split
  · exact matches_pure ()
  · exact matches_throw _

/-- Where the shape of an operation is stated, the operation has one operand. -/
theorem matches_checkStatedShape (id : ValueId) {op : Operation} {operands : List Shape}
    (hStated : (∃ dims, op = .broadcast dims) ∨ op = .reshape → ∃ a, operands = [a])
    (stated : Shape) :
    Matches (checkStatedShape id op operands stated)
      (ArrayEquations.checkStatedShape id op operands stated) := by
  cases op with
  | broadcast dims =>
    obtain ⟨a, rfl⟩ := hStated (Or.inl ⟨dims, rfl⟩)
    exact (matches_checkBroadcast a dims stated).adapt _
  | reshape =>
    obtain ⟨a, rfl⟩ := hStated (Or.inr rfl)
    exact matches_lift _
  | foreign => exact matches_pure _
  | _ => exact matches_checkInferredShape _ _ _ _

/-! ## Values -/

/-- The value of a draft, which is next in the graph. -/
def importValue (g : Graph) (draft : ValueDraft) : Checked ImportError Value := do
  let id := draft.id
  if id ≠ g.size then throw (.outOfOrder id g.size)
  match draft with
  | .leaf _ shape => return ⟨.leaf, shape⟩
  | .literal _ x => return ⟨.literal x, []⟩
  | .op _ primitive operands shape parameters => do
    if let some bad := operands.find? (id ≤ ·) then throw (.undefinedOperand id bad)
    let shapes ← shapes? g operands
    let op ← importOperation primitive parameters shapes
    checkStatedShape id op shapes shape
    return ⟨.op op operands, shape⟩

/-- The graph of the values in order. -/
def importGraph (values : List ValueDraft) : Checked ImportError Graph :=
  values.foldlM (fun g draft => return g.push (← importValue g draft)) Graph.empty

theorem matches_importValue (g : Graph) (draft : ValueDraft) :
    Matches (importValue g draft) (ArrayEquations.importValue g draft) := by
  unfold importValue ArrayEquations.importValue
  simp only
  split
  · exact matches_throw_bind _ _
  rename_i hId
  rw [ne_eq, not_not] at hId
  cases draft with
  | leaf id shape => exact matches_pure _
  | literal id x => exact matches_pure _
  | op id primitive operands shape parameters =>
    simp only
    cases hFind : operands.find? fun w =>
        decide ((ValueDraft.op id primitive operands shape parameters).id ≤ w) with
    | some bad => exact matches_throw_bind _ _
    | none =>
      -- The value is next in the graph, so what comes before it is in the graph.
      have hLt : ∀ w ∈ operands, w < g.size := by
        intro w hw
        have hNot := List.find?_eq_none.mp hFind w hw
        rw [decide_eq_true_eq] at hNot
        exact hId ▸ Nat.not_le.mp hNot
      refine matches_access (shapes?_eq hLt) ?_
      refine (matches_importOperation primitive parameters _).bind fun op hOp => ?_
      refine (matches_checkStatedShape id (importOperation_arity hOp) shape).bind fun _ _ => ?_
      exact matches_pure _

theorem matches_importGraph (values : List ValueDraft) :
    Matches (importGraph values) (ArrayEquations.importGraph values) :=
  matches_foldlM fun draft _ g =>
    (matches_importValue g draft).bind fun value _ => matches_pure (g.push value)

/-! ## Arguments -/

/-- Checks the argument at position `i`. -/
def checkArgumentAt (g : Graph) (arguments : List Argument) (a : Argument) (i : Nat) :
    Checked ImportError Unit :=
  if !g.isLeaf a.value then throw (.argumentNotLeaf a.value)
  else do
    let before ← upTo? arguments i
    if before.any (·.value == a.value) then throw (.argumentRepeated a.value) else pure ()

/-- Whether the arguments are inputs, each listed once. -/
def checkArguments (g : Graph) (arguments : List Argument) : Checked ImportError Unit :=
  arguments.zipIdx.forM fun (a, i) => checkArgumentAt g arguments a i

theorem matches_checkArguments (g : Graph) (arguments : List Argument) :
    Matches (checkArguments g arguments) (ArrayEquations.checkArguments g [] arguments) := by
  suffices h : ∀ after before, arguments = before ++ after →
      Matches ((after.zipIdx before.length).forM fun (a, i) => checkArgumentAt g arguments a i)
        (ArrayEquations.checkArguments g (before.reverse.map (·.value)) after) from
    h arguments [] rfl
  intro after
  induction after with
  | nil => exact fun _ _ => matches_pure ()
  | cons a after ih =>
    intro before hSplit
    -- The arguments up to this one are the ones that were checked.
    have hLater := ih (before ++ [a]) (by simp [hSplit])
    rw [List.length_append, List.length_singleton, List.reverse_append] at hLater
    rw [ArrayEquations.checkArguments]
    show Matches (checkArgumentAt g arguments a before.length >>= fun _ => _) _
    unfold checkArgumentAt
    cases hLeaf : g.isLeaf a.value with
    | false => exact matches_throw_bind _ _
    | true =>
      simp only [Bool.not_true, Bool.false_eq_true, if_false]
      rw [bind_assoc]
      refine matches_access (hSplit ▸ upTo?_append before (a :: after)) ?_
      have hSeen : (before.reverse.map (·.value)).contains a.value =
          before.any (·.value == a.value) := by
        rw [List.map_reverse, List.contains_reverse, List.contains_eq_any_beq, List.any_map]
        exact congrArg before.any (funext fun b => BEq.comm)
      rw [hSeen]
      cases before.any (·.value == a.value) with
      | true => exact matches_throw_bind _ _
      | false => exact hLater

/-! ## Traces -/

/-- The trace of a draft. -/
def ofDraft (d : TraceDraft) : Checked ImportError Trace := do
  let g ← importGraph d.values
  checkArguments g d.arguments
  checkLeaves g d.arguments
  checkTags g d.tags
  checkOutputs g d.outputs
  let bindings ← importBindings g d.bindings
  return ⟨d.name, g, d.arguments, bindings, d.tags, d.outputs⟩

/-- The trace of a document's text. -/
def ofText (text : String) : Checked ImportError Trace := do
  let draft ← (decodeText TraceDraft.ofJson text).mapError ImportError.decode
  ofDraft draft

/-- **No access of an import fails**, whether the draft is one of a trace or not. -/
theorem matches_ofDraft (d : TraceDraft) : Matches (ofDraft d) (Trace.ofDraft d) := by
  unfold ofDraft Trace.ofDraft
  refine (matches_importGraph d.values).bind fun g _ => ?_
  refine (matches_checkArguments g d.arguments).bind fun _ _ => ?_
  refine (matches_lift _).bind fun _ _ => ?_
  refine (matches_lift _).bind fun _ _ => ?_
  refine (matches_lift _).bind fun _ _ => ?_
  exact (matches_lift _).bind fun bindings _ => matches_pure _

/-- **No document makes an access of its import fail.** -/
theorem matches_ofText (text : String) : Matches (ofText text) (Trace.ofText text) :=
  (matches_lift _).bind fun draft _ => matches_ofDraft draft

end Checked

end ArrayEquations
