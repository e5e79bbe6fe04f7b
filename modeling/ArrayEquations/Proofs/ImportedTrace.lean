import ArrayEquations.Proofs.DocumentTrace

/-!
# ArrayEquations — importing what was written

The checks of an import accept exactly the traces that are well-formed, whose tags speak of
values that exist and whose foreign operations have names of their own. The draft of such a
trace is imported to the trace.

## Main definitions

* `Trace.Importable` — what the checks of an import establish.

## Main results

* `Trace.importable_of_ofDraft` — an imported trace is importable.
* `Trace.ofDraft_toDraft` — the draft of an importable trace is imported to the trace.
-/

namespace ArrayEquations

/-- No foreign operation has a name of the table, which would make it another operation. -/
def Graph.ForeignNames (g : Graph) : Prop :=
  ∀ v name operands, g.op? v = some (.foreign name, operands) → primitive? name = none

/-- What the checks of an import establish. -/
structure Trace.Importable (t : Trace) : Prop where
  wellFormed : t.WellFormed
  foreign : t.graph.ForeignNames
  tag_lt : ∀ tag ∈ t.tags, tag.primal < t.graph.size ∧ tag.value < t.graph.size

/-! ## Operations -/

namespace Operation

/-- An operation that fits its operands is found by its name and its parameters. -/
theorem importOperation_toDraft {op : Operation} {operands : List Shape} {out : Shape}
    (h : op.Fits operands out) (hForeign : ∀ name, op = .foreign name → primitive? name = none) :
    importOperation op.name op.toDraft operands = .ok op := by
  cases h with
  | @arith op => cases op <;> rfl
  | @call f => cases f <;> rfl
  | @indicator c => cases c <;> rfl
  | @foreign name =>
    rw [Operation.name, importOperation, hForeign name rfl]
  | _ => rfl

/-- The operations of the table are not foreign. -/
theorem operationOf_ne_foreign {primitive name : String} {family : Family} {p : ParameterDraft}
    {operands : List Shape} :
    operationOf primitive family p operands ≠ .ok (.foreign name) := by
  intro h
  unfold operationOf at h
  cases family with
  | contract =>
    obtain ⟨lhs, -, h⟩ := bind_eq_ok h
    obtain ⟨rhs, -, h⟩ := bind_eq_ok h
    exact absurd (Except.ok.inj h) (by simp)
  | broadcast =>
    obtain ⟨dims, -, h⟩ := bind_eq_ok h
    exact absurd (Except.ok.inj h) (by simp)
  | _ => exact absurd (Except.ok.inj h) (by simp)

theorem primitive?_of_importOperation {primitive name : String} {p : ParameterDraft}
    {operands : List Shape} (h : importOperation primitive p operands = .ok (.foreign name)) :
    primitive? name = none := by
  unfold importOperation at h
  split at h
  · rename_i hNone
    obtain rfl : primitive = name := by simpa using h
    exact hNone
  · split at h
    · exact absurd h (by simp)
    · exact absurd h operationOf_ne_foreign

/-- A shape that fits the operands is the one that follows from them, or may be stated. -/
theorem checkStatedShape_of_fits {op : Operation} {operands : List Shape} {out : Shape}
    (h : op.Fits operands out) (id : ValueId) : checkStatedShape id op operands out = .ok () := by
  -- Except for stated shapes, the check compares with the shape that follows.
  have hFollows : op.resultShape operands = .ok out →
      (∀ dims, op ≠ .broadcast dims) → op ≠ .reshape → (∀ name, op ≠ .foreign name) →
      checkStatedShape id op operands out = .ok () := by
    intro hShape hBroadcast hReshape hForeign
    cases op with
    | broadcast dims => exact absurd rfl (hBroadcast dims)
    | reshape => exact absurd rfl hReshape
    | foreign name => exact absurd rfl (hForeign name)
    | _ =>
      unfold checkStatedShape
      simp only [hShape, ↓reduceIte]
  cases h with
  | broadcast h =>
    have hCheck := Shape.checkBroadcast_eq_ok.mpr h
    exact congrArg (Except.mapError (ImportError.shape id)) hCheck
  | reshape h =>
    have hCheck := Shape.checkReshape_eq_ok.mpr h
    exact congrArg (Except.mapError (ImportError.shape id)) hCheck
  | foreign => rfl
  | arith h | indicator h | accumulate h => exact hFollows h (by simp) (by simp) (by simp)
  | contract h =>
    exact hFollows (ContractionAxes.resultShape_eq_ok.mpr ⟨h, rfl⟩) (by simp) (by simp) (by simp)
  | reduceSum hLt hNodup =>
    exact hFollows (sumShape_eq_ok.mpr ⟨⟨hLt, hNodup⟩, rfl⟩) (by simp) (by simp) (by simp)
  | transpose hLength hLt hNodup =>
    exact hFollows (transposeShape_eq_ok.mpr ⟨⟨hLength, hLt, hNodup⟩, rfl⟩) (by simp) (by simp)
      (by simp)
  | neg | call | cast => exact hFollows rfl (by simp) (by simp) (by simp)

end Operation

/-! ## Graphs -/

namespace Graph

/-- Every graph is built by adding one value after the other. -/
theorem push_induction {P : Graph → Prop} (hEmpty : P empty)
    (hPush : ∀ g value, P g → P (g.push value)) (g : Graph) : P g := by
  obtain ⟨⟨values⟩⟩ := g
  induction values using List.reverseRecOn with
  | nil => exact hEmpty
  | append_singleton values value ih =>
    have hStep := hPush _ value ih
    rwa [push, List.push_toArray] at hStep

/-- The values before the last one are well-formed, and they accept it. -/
theorem WellFormed.of_push {g : Graph} {value : Value} (h : (g.push value).WellFormed) :
    g.WellFormed ∧ g.Accepts value := by
  -- The old values are values of the larger graph, and the new one comes last.
  have hOld : ∀ {v old}, g.get? v = some old → (g.push value).get? v = some old :=
    fun hGet => (Extends.push g value).get?_of_some hGet
  have hBefore : ∀ {v op operands s}, g.get? v = some ⟨.op op operands, s⟩ →
      ∀ w ∈ operands, w < v := fun hGet => h.before (hOld hGet)
  refine ⟨⟨fun hGet => h.literal_shape (hOld hGet), hBefore, ?_⟩, ?_⟩
  · intro v op operands s hGet
    have hLt : ∀ w ∈ operands, w < g.size := fun w hw =>
      Nat.lt_trans (hBefore hGet w hw) (lt_size_of_get? hGet)
    rw [← map_shape_push value hLt]
    exact h.fits (hOld hGet)
  · obtain ⟨content, s⟩ := value
    have hNew := get?_push_size g ⟨content, s⟩
    cases content with
    | leaf => trivial
    | literal x => exact h.literal_shape hNew
    | op op operands =>
      have hLt : ∀ w ∈ operands, w < g.size := h.before hNew
      refine ⟨hLt, ?_⟩
      rw [← map_shape_push ⟨.op op operands, s⟩ hLt]
      exact h.fits hNew

theorem ForeignNames.of_push {g : Graph} {value : Value} (h : (g.push value).ForeignNames) :
    g.ForeignNames ∧
      ∀ name operands, value.op? = some (.foreign name, operands) → primitive? name = none := by
  constructor
  · intro v name operands hOp
    have hGet : g.get? v = some ⟨.op (.foreign name) operands, g.shape v⟩ := op?_eq_some hOp
    exact h v name operands (op?_of_get? ((Extends.push g value).get?_of_some hGet))
  · intro name operands hOp
    have hNew : (g.push value).op? g.size = some (.foreign name, operands) := by
      rw [op?, get?_push_size]
      exact hOp
    exact h g.size name operands hNew

theorem toDrafts_push (g : Graph) (value : Value) :
    (g.push value).toDrafts = g.toDrafts ++ [value.toDraft g.size] := by
  simp [toDrafts, toList, push, size, List.zipIdx_append]

/-- A value that the graph accepts is imported. -/
theorem importValue_toDraft {g : Graph} {value : Value} (h : g.Accepts value)
    (hForeign : ∀ name operands, value.op? = some (.foreign name, operands) →
      primitive? name = none) :
    importValue g (value.toDraft g.size) = .ok value := by
  have hId : ¬ (value.toDraft g.size).id ≠ g.size := by
    obtain ⟨content, s⟩ := value
    cases content <;> exact not_not.mpr rfl
  unfold importValue
  simp only
  rw [if_neg hId]
  obtain ⟨content, s⟩ := value
  -- An input and a constant have nothing to check; an operation has its operands and its shape.
  cases content with
  | leaf => rfl
  | literal x =>
    obtain rfl : s = [] := h
    rfl
  | op op operands =>
    obtain ⟨hLt, hFits⟩ := h
    have hOperation := Operation.importOperation_toDraft hFits fun name hName =>
      hForeign name operands (by rw [← hName]; rfl)
    have hShape := Operation.checkStatedShape_of_fits hFits g.size
    simp only [Value.toDraft, ValueDraft.id]
    split
    · -- No operand is out of place.
      rename_i bad hFind
      have hTest := List.find?_some hFind
      have hBad : g.size ≤ bad := of_decide_eq_true hTest
      exact absurd (hLt bad (List.mem_of_find?_eq_some hFind)) (Nat.not_lt.mpr hBad)
    · rw [hOperation]
      show checkStatedShape g.size op (operands.map g.shape) s >>= _ = _
      rw [hShape]
      rfl

theorem ForeignNames.push {g : Graph} {value : Value} (h : g.ForeignNames)
    (hNew : ∀ name operands, value.op? = some (.foreign name, operands) →
      primitive? name = none) : (g.push value).ForeignNames := by
  intro v name operands hOp
  rcases get?_push (op?_eq_some hOp) with hOld | ⟨-, hValue⟩
  · exact h v name operands (op?_of_get? hOld)
  · exact hNew name operands (by rw [← hValue]; rfl)

theorem primitive?_of_importValue {g : Graph} {draft : ValueDraft} {value : Value}
    (h : importValue g draft = .ok value) {name : String} {operands : List ValueId}
    (hOp : value.op? = some (.foreign name, operands)) : primitive? name = none := by
  obtain ⟨s, rfl⟩ | ⟨x, rfl⟩ | ⟨_, _, op, operands', s, rfl, -, hOperation, -⟩ :=
    importValue_cases h
  · exact absurd hOp (by simp [Value.op?])
  · exact absurd hOp (by simp [Value.op?])
  · obtain ⟨rfl, -⟩ := Prod.mk.inj (Option.some.inj hOp)
    exact Operation.primitive?_of_importOperation hOperation

theorem foreignNames_of_importGraph {values : List ValueDraft} {g : Graph}
    (h : importGraph values = .ok g) : g.ForeignNames := by
  have hEmpty : empty.ForeignNames :=
    fun _ _ _ hOp => absurd hOp (by simp [op?, get?, empty])
  refine foldlM_preserves ?_ hEmpty h
  intro g draft g' hg hStep
  obtain ⟨value, hValue, hStep⟩ := bind_eq_ok hStep
  obtain rfl := Except.ok.inj hStep
  exact hg.push fun _ _ hOp => primitive?_of_importValue hValue hOp

/-- **The draft of a graph is imported to the graph.** -/
theorem importGraph_toDrafts {g : Graph} (h : g.WellFormed) (hForeign : g.ForeignNames) :
    importGraph g.toDrafts = .ok g := by
  induction g using push_induction with
  | hEmpty => rfl
  | hPush g value ih =>
    obtain ⟨hBefore, hAccepts⟩ := h.of_push
    obtain ⟨hForeignBefore, hForeignNew⟩ := hForeign.of_push
    have hGraph := ih hBefore hForeignBefore
    have hValue := importValue_toDraft hAccepts hForeignNew
    rw [importGraph] at hGraph ⊢
    rw [toDrafts_push, List.foldlM_append, hGraph]
    show (importValue g (value.toDraft g.size) >>= fun v => pure (g.push v)) >>= pure = _
    rw [hValue]
    rfl

end Graph

/-! ## Bindings -/

/-- Drafts of bindings are collected as the bindings are collected anew. -/
theorem importBindings_toDraft (g : Graph) (bindings : List Binding) :
    importBindings g (bindings.map Binding.toDraft) =
      (replayBindings g bindings).mapError .binding := by
  suffices h : ∀ before, bindings.foldlM (fun collected b =>
      (addBinding g collected b.value b.name b.dependsOn).mapError ImportError.binding) before =
      (bindings.foldlM (fun collected b => addBinding g collected b.value b.name b.dependsOn)
        before).mapError .binding by
    rw [importBindings, List.foldlM_map]
    exact h []
  induction bindings with
  | nil => exact fun _ => rfl
  | cons b bindings ih =>
    intro before
    rw [List.foldlM_cons, List.foldlM_cons]
    cases addBinding g before b.value b.name b.dependsOn with
    | error e => rfl
    | ok collected => exact ih collected

theorem forM_eq_ok {ε α : Type} {f : α → Except ε PUnit} {as : List α} :
    as.forM f = .ok ⟨⟩ ↔ ∀ a ∈ as, f a = .ok ⟨⟩ := by
  induction as with
  | nil => exact iff_of_true rfl fun _ ha => absurd ha List.not_mem_nil
  | cons a as ih =>
    rw [List.forall_mem_cons, ← ih]
    show f a >>= (fun _ => as.forM f) = _ ↔ _
    cases f a with
    | error e => exact iff_of_false (by simp [bind, Except.bind]) fun h => absurd h.1 (by simp)
    | ok _ => exact ⟨fun h => ⟨rfl, h⟩, fun h => h.2⟩

/-- A dependency is accepted iff it is an input or has a name. -/
theorem checkDependency_eq_ok {g : Graph} {bindings : List Binding} {name : String} {v : ValueId} :
    checkDependency g bindings name v = .ok () ↔
      v < g.size ∧ (g.isLeaf v = true ∨ isTarget bindings v = true) := by
  unfold checkDependency
  by_cases hv : v < g.size
  · rw [if_neg (by simpa [Graph.has] using hv), ← Bool.or_eq_true]
    split <;> simp [*]
  · rw [if_pos (by simpa [Graph.has] using hv)]
    exact iff_of_false (by simp) fun h => hv h.1

/-- A binding is accepted iff it gives a name to a value and its dependencies are accepted. -/
theorem checkBinding_eq_ok {g : Graph} {bindings : List Binding} {value : ValueId}
    {name : String} {dependsOn : Option (List ValueId)} :
    checkBinding g bindings value name dependsOn = .ok () ↔
      isBlankText name = false ∧ value < g.size ∧
        ∀ w ∈ dependsOn.getD [], checkDependency g bindings name w = .ok () := by
  unfold checkBinding
  cases hBlank : isBlankText name with
  | true => simp [throw, throwThe, MonadExceptOf.throw, bind, Except.bind]
  | false =>
    by_cases hValue : value < g.size
    · have hHas : g.has value = true := decide_eq_true hValue
      simp only [hHas, hValue, Bool.false_eq_true, Bool.not_true, ↓reduceIte, true_and]
      exact forM_eq_ok
    · have hHas : g.has value = false := decide_eq_false hValue
      simp [hHas, hValue, throw, throwThe, MonadExceptOf.throw, bind, Except.bind]

/-- The bindings with one more are those before and the new one. -/
theorem addBinding_eq_ok {g : Graph} {bindings bindings' : List Binding} {value : ValueId}
    {name : String} {dependsOn : Option (List ValueId)} :
    addBinding g bindings value name dependsOn = .ok bindings' ↔
      checkBinding g bindings value name dependsOn = .ok () ∧
        bindings' = bindings ++ [⟨bindings.length, name, value, dependsOn⟩] := by
  unfold addBinding
  cases checkBinding g bindings value name dependsOn with
  | error e => exact iff_of_false (by simp [bind, Except.bind]) fun h => absurd h.1 (by simp)
  | ok _ => simp [eq_comm, bind, Except.bind, pure, Except.pure]

theorem lt_size_of_replayBindings {g : Graph} {bindings collected : List Binding}
    (h : replayBindings g bindings = .ok collected) :
    ∀ b ∈ collected, b.value < g.size ∧ ∀ w ∈ b.dependsOn.getD [], w < g.size := by
  refine foldlM_preserves (P := fun bs => ∀ b ∈ bs, b.value < g.size ∧
    ∀ w ∈ b.dependsOn.getD [], w < g.size) ?_ (fun _ hb => absurd hb List.not_mem_nil) h
  intro before b after hBefore hStep
  obtain ⟨hCheck, rfl⟩ := addBinding_eq_ok.mp hStep
  obtain ⟨-, hValue, hDependencies⟩ := checkBinding_eq_ok.mp hCheck
  intro b' hb'
  rcases List.mem_append.mp hb' with hb' | hb'
  · exact hBefore b' hb'
  · obtain rfl := List.mem_singleton.mp hb'
    exact ⟨hValue, fun w hw => (checkDependency_eq_ok.mp (hDependencies w hw)).1⟩

/-! ## Traces -/

/-- The parameters of an operation are axes of its operands or of its result. -/
theorem Operation.Fits.axisNumbers_lt {op : Operation} {operands : List Shape} {out : Shape}
    (h : op.Fits operands out) {bound : Nat} (hOperands : ∀ a ∈ operands, a.rank ≤ bound)
    (hOut : out.rank ≤ bound) : ∀ n ∈ op.axisNumbers, n < bound := by
  intro n hn
  cases h with
  | @contract axes a b h =>
    have ha : a.rank ≤ bound := hOperands a (by simp)
    have hb : b.rank ≤ bound := hOperands b (by simp)
    simp only [Operation.axisNumbers, List.mem_append] at hn
    -- The numbers of a contraction stand in four rows, two for each operand.
    rcases hn with ((hn | hn) | hn) | hn
    · exact Nat.lt_of_lt_of_le (h.lhs_lt n (List.mem_append_left _ hn)) ha
    · exact Nat.lt_of_lt_of_le (h.rhs_lt n (List.mem_append_left _ hn)) hb
    · exact Nat.lt_of_lt_of_le (h.lhs_lt n (List.mem_append_right _ hn)) ha
    · exact Nat.lt_of_lt_of_le (h.rhs_lt n (List.mem_append_right _ hn)) hb
  | @reduceSum axes a hLt _ =>
    have ha : a.rank ≤ bound := hOperands a (by simp)
    exact Nat.lt_of_lt_of_le (hLt n hn) ha
  | broadcast h => exact Nat.lt_of_lt_of_le (h.lt_rank n hn) hOut
  | @transpose permutation a _ hLt _ =>
    have ha : a.rank ≤ bound := hOperands a (by simp)
    exact Nat.lt_of_lt_of_le (hLt n hn) ha
  | _ => exact absurd hn List.not_mem_nil

namespace Trace

/-- **A trace that passes the checks of an import is importable.** -/
theorem importable_of_ofDraft {draft : TraceDraft} {t : Trace} (h : ofDraft draft = .ok t) :
    t.Importable := by
  have hWellFormed := wellFormed_of_ofDraft h
  unfold ofDraft at h
  obtain ⟨g, hGraph, h⟩ := bind_eq_ok h
  obtain ⟨⟨⟩, -, h⟩ := bind_eq_ok h
  obtain ⟨⟨⟩, -, h⟩ := bind_eq_ok h
  obtain ⟨⟨⟩, hTags, h⟩ := bind_eq_ok h
  obtain ⟨⟨⟩, -, h⟩ := bind_eq_ok h
  obtain ⟨bindings, -, h⟩ := bind_eq_ok h
  obtain rfl := Except.ok.inj h
  exact ⟨hWellFormed, Graph.foreignNames_of_importGraph hGraph, checkTags_eq_ok.mp hTags⟩

/-- **The draft of an importable trace is imported to the trace.** -/
theorem ofDraft_toDraft {t : Trace} (h : t.Importable) : ofDraft t.toDraft = .ok t := by
  have hGraph := Graph.importGraph_toDrafts h.wellFormed.graph h.foreign
  have hArguments : checkArguments t.graph [] t.arguments = .ok () :=
    checkArguments_eq_ok.mpr ⟨fun a ha => ⟨h.wellFormed.leaf_of_argument a ha, List.not_mem_nil⟩,
      h.wellFormed.nodup_arguments⟩
  have hLeaves : checkLeaves t.graph t.arguments = .ok () :=
    checkLeaves_eq_ok.mpr h.wellFormed.argument_of_leaf
  have hTags : checkTags t.graph t.tags = .ok () := checkTags_eq_ok.mpr h.tag_lt
  have hOutputs : checkOutputs t.graph t.outputs = .ok () :=
    checkOutputs_eq_ok.mpr ⟨h.wellFormed.outputs_ne_nil, h.wellFormed.output_lt⟩
  have hBindings : importBindings t.graph (t.bindings.map Binding.toDraft) = .ok t.bindings := by
    rw [importBindings_toDraft, h.wellFormed.bindings]
    rfl
  unfold ofDraft
  simp only [toDraft, hGraph, hArguments, hLeaves, hTags, hOutputs, hBindings, bind, Except.bind]
  rfl

/-- The numbers of the trace are of the types that traces and documents have for them: positions
have 32 bits, extents and axes have 64 bits. -/
structure Sized (t : Trace) : Prop where
  size_le : t.graph.size ≤ Nat.pow 2 32
  extent_lt : ∀ v, ∀ n ∈ t.graph.shape v, n < wordBound
  rank_le : ∀ v, (t.graph.shape v).rank ≤ wordBound

/-- Everything that the annotations of an importable trace speak of is a value of the graph, and
the parameters of its operations are axes of their operands and results. -/
theorem Importable.storable {t : Trace} (h : t.Importable) (hSized : t.Sized)
    (hExact : ∀ v x, t.graph.literal? v = some x → ExactInDocument x) : t.Storable := by
  -- Every value of the graph has a number that a document can hold.
  have hId : ∀ {v}, v < t.graph.size → IsDocumentId v := fun hv =>
    Nat.lt_of_lt_of_le hv hSized.size_le
  refine ⟨hSized.size_le, ?_, ?_, ?_, ?_, ?_⟩
  · rintro v ⟨content, s⟩ hGet
    have hShape : t.graph.shape v = s := Graph.shape_of_get? hGet
    have hv := Graph.lt_size_of_get? hGet
    refine ⟨?_, ?_, ?_, ?_⟩
    · exact hShape ▸ hSized.extent_lt v
    · intro w hw
      cases content with
      | op op operands => exact hId (Nat.lt_trans (h.wellFormed.graph.before hGet w hw) hv)
      | leaf | literal x => exact absurd hw List.not_mem_nil
    · rintro ⟨op, operands⟩ hOp
      cases content with
      | op op' operands' =>
        obtain ⟨rfl, rfl⟩ := Prod.mk.inj (Option.some.inj hOp)
        refine (h.wellFormed.graph.fits hGet).axisNumbers_lt ?_ (hShape ▸ hSized.rank_le v)
        intro a ha
        obtain ⟨w, -, rfl⟩ := List.mem_map.mp ha
        exact hSized.rank_le w
      | leaf | literal x => exact absurd hOp (by simp [Value.op?])
    · intro x hx
      refine hExact v x ?_
      rw [Graph.literal?, hGet]
      exact hx
  · intro a ha
    exact hId (Graph.lt_size_of_get? (Graph.isLeaf_eq_true (h.wellFormed.leaf_of_argument a ha)))
  · intro b hb
    obtain ⟨hValue, hDependencies⟩ := lt_size_of_replayBindings h.wellFormed.bindings b hb
    exact ⟨hId hValue, fun w hw => hId (hDependencies w hw)⟩
  · intro tag hTag
    exact ⟨hId (h.tag_lt tag hTag).1, hId (h.tag_lt tag hTag).2⟩
  · intro o ho
    exact hId (h.wellFormed.output_lt o ho)

/-- Text that is read to the document of a trace is imported to the trace. -/
theorem ofText_of_readDocument {t : Trace} (h : t.Importable) (hStorable : t.Storable)
    {text : String} (hText : readDocument text = ⟨t.toJson, true⟩) : ofText text = .ok t := by
  have hDecode : decodeText TraceDraft.ofJson text = .ok t.toDraft := by
    rw [decodeText, hText]
    show TraceDraft.ofJson t.toJson >>= (fun draft => if true then pure draft else _) = _
    rw [ofJson_toJson hStorable]
    rfl
  rw [ofText, hDecode]
  exact ofDraft_toDraft h

/-- **Both texts of an importable trace are imported to the trace.** -/
theorem Importable.ofText_eq_ok {t : Trace} (h : t.Importable) (hSized : t.Sized)
    (hExact : ∀ v x, t.graph.literal? v = some x → ExactInDocument x) :
    ofText t.prettyText = .ok t ∧ ofText t.compactText = .ok t := by
  have hStorable := h.storable hSized hExact
  have hLegible : t.toJson.Legible := legible_toJson fun hLiteral => hExact _ _ hLiteral
  exact ⟨ofText_of_readDocument h hStorable (readDocument_pretty hLegible),
    ofText_of_readDocument h hStorable (readDocument_compact hLegible)⟩

/-- A trace without constants that is imported from its own document has a text. -/
theorem exists_text_of_ofDraft {t : Trace} (h : ofDraft t.toDraft = .ok t)
    (hSize : t.graph.size ≤ Nat.pow 2 32)
    (hShapes : ∀ v < t.graph.size,
      (∀ n ∈ t.graph.shape v, n < wordBound) ∧ (t.graph.shape v).rank ≤ wordBound)
    (hConstants : ∀ v < t.graph.size, (t.graph.literal? v).isNone = true) :
    ∃ text, ofText text = .ok t := by
  -- Beyond the graph every shape is that of a scalar.
  have hSized : t.Sized := by
    refine ⟨hSize, ?_, ?_⟩ <;> intro v <;> by_cases hv : v < t.graph.size
    · exact (hShapes v hv).1
    · rw [Graph.shape, Graph.get?_eq_none (Nat.not_lt.mp hv)]
      exact fun n hn => absurd hn List.not_mem_nil
    · exact (hShapes v hv).2
    · rw [Graph.shape, Graph.get?_eq_none (Nat.not_lt.mp hv)]
      exact Nat.zero_le _
  have hExact : ∀ v x, t.graph.literal? v = some x → ExactInDocument x := by
    intro v x hx
    obtain ⟨value, hGet, -⟩ := Option.bind_eq_some_iff.mp hx
    have hNone := hConstants v (Graph.lt_size_of_get? hGet)
    rw [hx] at hNone
    exact absurd hNone (by simp)
  exact ⟨_, ((importable_of_ofDraft h).ofText_eq_ok hSized hExact).2⟩

/-- An imported text is that of an importable trace. -/
theorem importable_of_ofText {text : String} {t : Trace} (h : ofText text = .ok t) :
    t.Importable := by
  obtain ⟨draft, -, hDraft⟩ := bind_eq_ok h
  exact importable_of_ofDraft hDraft

end Trace

end ArrayEquations
