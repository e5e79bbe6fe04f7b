import ArrayEquations.Interchange
import ArrayEquations.Interchange.Draft
import ArrayEquations.Proofs.DocumentText
import ArrayEquations.Proofs.WellFormed

/-!
# ArrayEquations — documents of traces

The document of a trace holds the draft of the trace. Every decoder undoes the writer of its
item, provided that the numbers are those that documents can hold: positions of 32 bits,
extents and axes of 64 bits, and constants whose numerals stand for them.

## Main definitions

* `Trace.toDraft` — the draft of a trace.
* `Value.Storable` — the numbers of a value are those of documents.

## Main results

* `Trace.ofJson_toJson` — the document of a trace is decoded to its draft.
* `Trace.legible_toJson` — the document of a trace can be read back.
-/

namespace ArrayEquations

open TraceDraft

/-! ## Drafts of traces -/

/-- The parameters of an operation in a draft. -/
def Operation.toDraft : Operation → ParameterDraft
  | .contract axes =>
    { lhsContract := some axes.lhsContract
      rhsContract := some axes.rhsContract
      lhsBatch := some axes.lhsBatch
      rhsBatch := some axes.rhsBatch }
  | .reduceSum axes => { axes := some axes }
  | .broadcast dims => { dims := some dims }
  | .transpose permutation => { permutation := some permutation }
  | .cast dtype => { dtype := some dtype }
  | _ => {}

/-- A value in a draft, at its position. -/
def Value.toDraft (v : Value) (id : ValueId) : ValueDraft :=
  match v.content with
  | .leaf => .leaf id v.shape
  | .literal x => .literal id x
  | .op op operands => .op id op.name operands v.shape op.toDraft

/-- A binding in a draft. -/
def Binding.toDraft (b : Binding) : BindingDraft := ⟨b.name, b.value, b.dependsOn⟩

/-- The values of a graph in a draft. -/
def Graph.toDrafts (g : Graph) : List ValueDraft :=
  g.toList.zipIdx.map fun x => x.1.toDraft x.2

/-- The draft of a trace. -/
def Trace.toDraft (t : Trace) : TraceDraft :=
  ⟨t.name, t.arguments, t.graph.toDrafts, t.bindings.map Binding.toDraft, t.tags, t.outputs⟩

/-! ## Numbers of documents -/

/-- The numbers among the parameters of an operation. -/
def Operation.axisNumbers : Operation → List Nat
  | .contract axes => axes.lhsContract ++ axes.rhsContract ++ axes.lhsBatch ++ axes.rhsBatch
  | .reduceSum axes => axes
  | .broadcast dims => dims
  | .transpose permutation => permutation
  | _ => []

/-- The position fits into 32 bits. -/
def IsDocumentId (v : ValueId) : Prop := v < Nat.pow 2 32

theorem IsDocumentId.lt_wordBound {v : ValueId} (h : IsDocumentId v) : v < wordBound :=
  Nat.lt_of_lt_of_le h (by decide)

/-- The numbers of the value are those that documents hold. -/
structure Value.Storable (v : Value) : Prop where
  shape : ∀ n ∈ v.shape, n < wordBound
  operand : ∀ w ∈ v.operands, IsDocumentId w
  axes : ∀ x ∈ v.op?, ∀ n ∈ x.1.axisNumbers, n < wordBound
  literal : ∀ x ∈ v.literal?, ExactInDocument x

/-- The numbers of the trace are those that documents hold. -/
structure Trace.Storable (t : Trace) : Prop where
  size_le : t.graph.size ≤ Nat.pow 2 32
  value : ∀ {v value}, t.graph.get? v = some value → value.Storable
  argument : ∀ a ∈ t.arguments, IsDocumentId a.value
  binding : ∀ b ∈ t.bindings, IsDocumentId b.value ∧ ∀ w ∈ b.dependsOn.getD [], IsDocumentId w
  tag : ∀ tag ∈ t.tags, IsDocumentId tag.primal ∧ IsDocumentId tag.value
  output : ∀ o ∈ t.outputs, IsDocumentId o

/-! ## Single items -/

namespace Json

/-- Decoding an object takes its fields in order. -/
theorem decodeFields_ofFields {σ : Type} (step : σ → String → Json → Except DecodeError σ)
    (start : σ) (fields : List (String × Json)) :
    (ofFields fields).decodeFields step start =
      fields.foldlM (fun state x => step state x.1 x.2) start := by
  show ((fields.map _).foldlM _ start >>= fun decoded => if true then pure decoded else _) = _
  rw [List.foldlM_map]
  exact bind_pure _

/-- A list whose items are decoded is decoded. -/
theorem asList_ofList {α β : Type} {decode : Json → Except DecodeError β} {encode : α → Json}
    {f : α → β} {as : List α} (h : ∀ a ∈ as, decode (encode a) = .ok (f a)) :
    (ofList (as.map encode)).asList decode = .ok (as.map f) := by
  have hItems : (as.map encode).mapM decode = .ok (as.map f) := by
    rw [List.mapM_map]
    exact mapM_eq_ok h
  show ((as.map encode).mapM decode >>= fun decoded => if true then pure decoded else _) = _
  rw [hItems]
  rfl

theorem asNatBelow_ofNat {n bound : Nat} (h : n < bound) (hBound : bound ≤ wordBound) :
    (ofNat n).asNatBelow bound = .ok n := by
  rw [ofNat, asNatBelow, Numeral.inDocument?_ofNat (Nat.lt_of_lt_of_le h hBound)]
  exact if_pos h

theorem decodeId_ofNat {v : ValueId} (h : IsDocumentId v) : decodeId (ofNat v) = .ok v :=
  asNatBelow_ofNat h (by decide)

theorem decodeIds_ofNats {vs : List ValueId} (h : ∀ v ∈ vs, IsDocumentId v) :
    decodeIds (ofNats vs) = .ok vs := by
  have hAll : (ofNats vs).asList decodeId = .ok (vs.map id) :=
    asList_ofList fun v hv => decodeId_ofNat (h v hv)
  rwa [List.map_id] at hAll

theorem asNats_ofNats {ns : List Nat} (h : ∀ n ∈ ns, n < wordBound) :
    (ofNats ns).asNats = .ok ns := by
  have hAll : (ofNats ns).asList asNat = .ok (ns.map id) :=
    asList_ofList fun n hn => asNatBelow_ofNat (h n hn) (Nat.le_refl _)
  rwa [List.map_id] at hAll

theorem asOption_ofNats {ns : List Nat} (h : ∀ n ∈ ns, n < wordBound) :
    (ofNats ns).asOption asNats = .ok (some ns) :=
  congrArg (Except.map some) (asNats_ofNats h)

theorem asOption_ofIds {vs : List ValueId} (h : ∀ v ∈ vs, IsDocumentId v) :
    (ofNats vs).asOption decodeIds = .ok (some vs) :=
  congrArg (Except.map some) (decodeIds_ofNats h)

theorem asString_ofString (s : String) : (ofString s).asString = .ok s := rfl

theorem once_none {α : Type} (name : String) (a : α) : once name none (.ok a) = .ok (some a) :=
  rfl

theorem required_some {α : Type} (name : String) (a : α) : required name (some a) = .ok a := rfl

end Json

/-! ## Decoders undo writers -/

section Decoders

open Json

theorem decodeArgument_toJson {a : Argument} (h : IsDocumentId a.value) :
    decodeArgument a.toJson = .ok a := by
  obtain ⟨value, name, derivative⟩ := a
  have hValue : decodeId (ofNat value) = .ok value := decodeId_ofNat h
  rw [decodeArgument, Argument.toJson, decodeFields_ofFields]
  cases name <;> cases derivative <;>
    simp [ArgumentFields.take, hValue, once_none, required_some, asOption, asBool, Except.map,
      ofString, asString, bind, Except.bind, pure, Except.pure]

theorem decodeBinding_toJson {b : Binding} (h : IsDocumentId b.value)
    (hDependencies : ∀ w ∈ b.dependsOn.getD [], IsDocumentId w) :
    decodeBinding b.toJson = .ok b.toDraft := by
  obtain ⟨id, name, value, dependsOn⟩ := b
  have hValue : decodeId (ofNat value) = .ok value := decodeId_ofNat h
  rw [decodeBinding, Binding.toJson, decodeFields_ofFields]
  cases dependsOn with
  | none =>
    simp [BindingFields.take, hValue, once_none, required_some, asString_ofString,
      Binding.toDraft, bind, Except.bind, pure, Except.pure]
  | some vs =>
    have hIds : (ofNats vs).asOption decodeIds = .ok (some vs) := asOption_ofIds hDependencies
    simp [BindingFields.take, hValue, hIds, once_none, required_some, asString_ofString,
      Binding.toDraft, bind, Except.bind, pure, Except.pure]

theorem decodeKind_name (kind : DerivativeKind) : decodeKind (ofString kind.name) = .ok kind := by
  cases kind <;> rfl

theorem decodeTag_toJson {t : DerivativeTag} (hPrimal : IsDocumentId t.primal)
    (hValue : IsDocumentId t.value) : decodeTag t.toJson = .ok t := by
  obtain ⟨kind, primal, value⟩ := t
  have hPrimal : decodeId (ofNat primal) = .ok primal := decodeId_ofNat hPrimal
  have hValue : decodeId (ofNat value) = .ok value := decodeId_ofNat hValue
  rw [decodeTag, DerivativeTag.toJson, decodeFields_ofFields]
  simp [TagFields.take, hPrimal, hValue, decodeKind_name, once_none, required_some, bind,
    Except.bind, pure, Except.pure]

/-- The parameters that an operation has are those that its name leaves open. -/
theorem decodeParameters_toJson {op : Operation} (h : ∀ n ∈ op.axisNumbers, n < wordBound) :
    decodeParameters (ofFields op.parameters) = .ok op.toDraft := by
  rw [decodeParameters, decodeFields_ofFields]
  cases op with
  | contract axes =>
    simp only [Operation.axisNumbers, List.forall_mem_append] at h
    obtain ⟨⟨⟨hLhs, hRhs⟩, hLhsBatch⟩, hRhsBatch⟩ := h
    simp [Operation.parameters, Operation.toDraft, ParameterFields.take, once_none,
      asOption_ofNats hLhs, asOption_ofNats hRhs, asOption_ofNats hLhsBatch,
      asOption_ofNats hRhsBatch, bind, Except.bind, pure, Except.pure]
  | reduceSum axes | broadcast axes | transpose axes =>
    have hAxes : (ofNats axes).asOption asNats = .ok (some axes) := asOption_ofNats h
    simp [Operation.parameters, Operation.toDraft, ParameterFields.take, once_none, hAxes, bind,
      Except.bind, pure, Except.pure]
  | _ => rfl

end Decoders

/-! ## Values -/

section Values

open Json

theorem isSound_ofNat {n depth : Nat} (h : n < wordBound) : (ofNat n).isSound depth = true := by
  rw [ofNat, isSound, Numeral.inDocument?_ofNat h]
  rfl

theorem isSound_number {n : Numeral} {x : Float} {depth : Nat}
    (h : (Json.number n).asFloat = .ok x) : (Json.number n).isSound depth = true := by
  cases hNumber : n.inDocument? with
  | none =>
    rw [asFloat, hNumber] at h
    exact absurd h (by simp)
  | some _ => rw [isSound, hNumber, Option.isSome_some]

theorem isSound_ofList {α : Type} {encode : α → Json} {as : List α} {depth : Nat}
    (h : ∀ a ∈ as, (encode a).isSound depth = true) :
    (ofList (as.map encode)).isSound (depth + 1) = true := by
  have hAll : areSound depth (as.map encode) = true := by
    induction as with
    | nil => rfl
    | cons a as ih =>
      rw [List.map_cons, areSound, h a List.mem_cons_self,
        ih fun b hb => h b (List.mem_cons_of_mem _ hb)]
      rfl
  rw [ofList, isSound, Nat.add_sub_cancel, hAll]
  simp

theorem isSound_ofNats {ns : List Nat} {depth : Nat} (h : ∀ n ∈ ns, n < wordBound) :
    (ofNats ns).isSound (depth + 1) = true :=
  isSound_ofList fun n hn => isSound_ofNat (h n hn)

theorem isSound_ofFields {fields : List (String × Json)} {depth : Nat}
    (h : ∀ x ∈ fields, x.2.isSound depth = true) :
    (ofFields fields).isSound (depth + 1) = true := by
  have hAll : fieldsAreSound depth (fields.map fun x => (some x.1, x.2)) = true := by
    induction fields with
    | nil => rfl
    | cons x fields ih =>
      rw [List.map_cons, fieldsAreSound, h x List.mem_cons_self,
        ih fun y hy => h y (List.mem_cons_of_mem _ hy)]
      rfl
  show (depth + 1 != 0 && fieldsAreSound (depth + 1 - 1) (fields.map _) && true) = true
  rw [Nat.add_sub_cancel]
  simpa using hAll

/-- The fields behind the kind are kept as they are. -/
theorem foldlM_takeValueField {kind : Option ValueKind} {before : List (Option String × Json)}
    {fields : List (String × Json)} (hKeys : ∀ x ∈ fields, x.1 ≠ "kind")
    (hSound : ∀ x ∈ fields, x.2.isSound 124 = true) :
    fields.foldlM (fun found x => takeValueField found x.1 x.2) (kind, before) =
      .ok (kind, before ++ fields.map fun x => (some x.1, x.2)) := by
  induction fields generalizing before with
  | nil => simp [pure, Except.pure]
  | cons x fields ih =>
    have hKey : ¬ (x.1 == "kind") = true := by simpa using hKeys x List.mem_cons_self
    -- A field that is not the kind is put behind those before, unread.
    have hOne : takeValueField (kind, before) x.1 x.2 =
        .ok (kind, before ++ [(some x.1, x.2)]) := by
      unfold takeValueField
      simp only
      rw [if_neg hKey, if_pos (hSound x List.mem_cons_self)]
      rfl
    have hRest : ∀ kept, fields.foldlM (fun found x => takeValueField found x.1 x.2) (kind, kept) =
        .ok (kind, kept ++ fields.map fun x => (some x.1, x.2)) := fun kept =>
      ih (fun y hy => hKeys y (List.mem_cons_of_mem _ hy))
        fun y hy => hSound y (List.mem_cons_of_mem _ hy)
    rw [List.foldlM_cons, hOne]
    refine (hRest _).trans ?_
    rw [List.append_assoc, List.map_cons, List.singleton_append]

theorem decodeFields_takeValueField {name : String} {kind : ValueKind}
    {fields : List (String × Json)} (hKind : decodeValueKind (ofString name) = .ok kind)
    (hKeys : ∀ x ∈ fields, x.1 ≠ "kind") (hSound : ∀ x ∈ fields, x.2.isSound 124 = true) :
    (ofFields (("kind", ofString name) :: fields)).decodeFields takeValueField (none, []) =
      .ok (some kind, fields.map fun x => (some x.1, x.2)) := by
  have hFirst : takeValueField (none, []) "kind" (ofString name) = .ok (some kind, []) := by
    unfold takeValueField
    simp only
    rw [if_pos (beq_self_eq_true _), hKind]
    rfl
  rw [decodeFields_ofFields, List.foldlM_cons, hFirst]
  exact foldlM_takeValueField hKeys hSound

theorem decodeValue_leaf {id : ValueId} {shape : Shape} (hId : IsDocumentId id)
    (hShape : ∀ n ∈ shape, n < wordBound) :
    decodeValue (Value.toJson ⟨.leaf, shape⟩ id) = .ok (.leaf id shape) := by
  have hKind : decodeValueKind (ofString "leaf") = .ok .leaf := rfl
  have hSound : ∀ x ∈ [("id", ofNat id), ("shape", ofNats shape)], x.2.isSound 124 = true := by
    simp [isSound_ofNat hId.lt_wordBound, isSound_ofNats hShape]
  have hRest : (ofFields [("id", ofNat id), ("shape", ofNats shape)]).decodeFields
      ValueFields.takeLeaf {} = .ok { id := some id, shape := some shape } := by
    rw [decodeFields_ofFields]
    simp [ValueFields.takeLeaf, decodeId_ofNat hId, asNats_ofNats hShape, once_none, bind,
      Except.bind, pure, Except.pure]
  show decodeValue (ofFields (("kind", ofString "leaf") :: [_, _])) = _
  rw [decodeValue, decodeFields_takeValueField hKind (by simp) hSound]
  show (ofFields _).decodeFields _ _ >>= _ = _
  rw [hRest]
  rfl

theorem decodeValue_literal {id : ValueId} {x : Float} {shape : Shape} (hId : IsDocumentId id)
    (hExact : ExactInDocument x) :
    decodeValue (Value.toJson ⟨.literal x, shape⟩ id) = .ok (.literal id x) := by
  obtain ⟨n, hNumeral, hFloat⟩ := hExact
  have hKind : decodeValueKind (ofString "literal") = .ok .literal := rfl
  have hJson : literalJson x = .number n := by rw [literalJson, hNumeral]; rfl
  have hSound : ∀ y ∈ [("id", ofNat id), ("value", Json.number n)], y.2.isSound 124 = true := by
    simp [isSound_ofNat hId.lt_wordBound, isSound_number hFloat]
  have hRest : (ofFields [("id", ofNat id), ("value", .number n)]).decodeFields
      ValueFields.takeLiteral {} = .ok { id := some id, value := some x } := by
    rw [decodeFields_ofFields]
    simp [ValueFields.takeLiteral, decodeId_ofNat hId, hFloat, once_none, bind, Except.bind, pure,
      Except.pure]
  show decodeValue (ofFields (("kind", ofString "literal") :: [_, ("value", literalJson x)])) = _
  rw [hJson, decodeValue, decodeFields_takeValueField hKind (by simp) hSound]
  show (ofFields _).decodeFields _ _ >>= _ = _
  rw [hRest]
  rfl

/-- The parameters that are written are sound. -/
theorem isSound_parameters {op : Operation} {depth : Nat}
    (h : ∀ n ∈ op.axisNumbers, n < wordBound) :
    (ofFields op.parameters).isSound (depth + 2) = true := by
  apply isSound_ofFields
  cases op with
  | contract axes =>
    simp only [Operation.axisNumbers, List.forall_mem_append] at h
    obtain ⟨⟨⟨hLhs, hRhs⟩, hLhsBatch⟩, hRhsBatch⟩ := h
    simp [Operation.parameters, isSound_ofNats hLhs, isSound_ofNats hRhs,
      isSound_ofNats hLhsBatch, isSound_ofNats hRhsBatch]
  | reduceSum axes | broadcast axes | transpose axes =>
    have hAxes : (ofNats axes).isSound (depth + 1) = true := isSound_ofNats h
    simp [Operation.parameters, hAxes]
  | _ => simp [Operation.parameters, isSound, ofString]

theorem toDraft_of_parameters_eq_nil {op : Operation} (h : op.parameters = []) :
    op.toDraft = {} := by
  cases op <;> first | rfl | exact absurd h (by simp [Operation.parameters])

/-- The fields of an operation behind its kind: those that every operation has, and the
parameters if there are any. -/
def operationFields (id : ValueId) (op : Operation) (operands : List ValueId) (shape : Shape) :
    List (String × Json) :=
  [("id", ofNat id), ("primitive", ofString op.name), ("operands", ofNats operands),
    ("shape", ofNats shape)] ++
    if op.parameters.isEmpty then [] else [("params", ofFields op.parameters)]

section Operations

variable {id : ValueId} {op : Operation} {operands : List ValueId} {shape : Shape}

theorem isSound_operationFields (hId : IsDocumentId id)
    (hOperands : ∀ w ∈ operands, IsDocumentId w) (hShape : ∀ n ∈ shape, n < wordBound)
    (hAxes : ∀ n ∈ op.axisNumbers, n < wordBound) :
    ∀ x ∈ operationFields id op operands shape, x.2.isSound 124 = true := by
  have hIds : ∀ w ∈ operands, w < wordBound := fun w hw => (hOperands w hw).lt_wordBound
  have hParameters : (ofFields op.parameters).isSound 124 = true := isSound_parameters hAxes
  unfold operationFields
  split <;>
    simp [isSound_ofNat hId.lt_wordBound, isSound_ofNats hIds, isSound_ofNats hShape,
      hParameters, ofString, isSound]

theorem decodeFields_takeOp (hId : IsDocumentId id) (hOperands : ∀ w ∈ operands, IsDocumentId w)
    (hShape : ∀ n ∈ shape, n < wordBound) (hAxes : ∀ n ∈ op.axisNumbers, n < wordBound) :
    ∃ params : Option ParameterDraft, params.getD {} = op.toDraft ∧
      (ofFields (operationFields id op operands shape)).decodeFields ValueFields.takeOp {} =
        .ok ⟨some id, some shape, none, some op.name, some operands, params⟩ := by
  rw [decodeFields_ofFields]
  unfold operationFields
  split
  · rename_i hEmpty
    refine ⟨none, (toDraft_of_parameters_eq_nil (List.isEmpty_iff.mp hEmpty)).symm, ?_⟩
    simp [ValueFields.takeOp, ValueFields.takeLeaf, decodeId_ofNat hId, asNats_ofNats hShape,
      decodeIds_ofNats hOperands, asString_ofString, once_none, bind, Except.bind, pure,
      Except.pure]
  · refine ⟨some op.toDraft, rfl, ?_⟩
    simp [ValueFields.takeOp, ValueFields.takeLeaf, decodeId_ofNat hId, asNats_ofNats hShape,
      decodeIds_ofNats hOperands, asString_ofString, decodeParameters_toJson hAxes, once_none,
      bind, Except.bind, pure, Except.pure]

theorem decodeValue_op (hId : IsDocumentId id) (hOperands : ∀ w ∈ operands, IsDocumentId w)
    (hShape : ∀ n ∈ shape, n < wordBound) (hAxes : ∀ n ∈ op.axisNumbers, n < wordBound) :
    decodeValue (Value.toJson ⟨.op op operands, shape⟩ id) =
      .ok (.op id op.name operands shape op.toDraft) := by
  have hKind : decodeValueKind (ofString "op") = .ok .op := rfl
  have hKeys : ∀ x ∈ operationFields id op operands shape, x.1 ≠ "kind" := by
    unfold operationFields
    split <;> simp
  have hSound := isSound_operationFields hId hOperands hShape hAxes
  obtain ⟨params, hParams, hFields⟩ := decodeFields_takeOp hId hOperands hShape hAxes
  show decodeValue (ofFields (("kind", ofString "op") :: operationFields id op operands shape)) = _
  rw [decodeValue, decodeFields_takeValueField hKind hKeys hSound]
  show (ofFields _).decodeFields _ _ >>= _ = _
  rw [hFields, ← hParams]
  rfl

end Operations

/-- **A value is decoded to its draft.** -/
theorem decodeValue_toJson {v : Value} {id : ValueId} (h : v.Storable) (hId : IsDocumentId id) :
    decodeValue (v.toJson id) = .ok (v.toDraft id) := by
  obtain ⟨content, shape⟩ := v
  cases content with
  | leaf => exact decodeValue_leaf hId h.shape
  | literal x => exact decodeValue_literal hId (h.literal x rfl)
  | op op operands => exact decodeValue_op hId h.operand h.shape (h.axes _ rfl)

end Values

/-! ## Legible documents -/

section Legible

open Json

theorem legible_ofNat (n : Nat) : (ofNat n).Legible := Numeral.legible_ofNat n

theorem legible_ofString (s : String) : (ofString s).Legible := rfl

theorem legible_ofList {α : Type} {encode : α → Json} {as : List α}
    (h : ∀ a ∈ as, (encode a).Legible) : (ofList (as.map encode)).Legible := by
  refine ⟨?_, rfl⟩
  induction as with
  | nil => trivial
  | cons a as ih =>
    exact ⟨h a List.mem_cons_self, ih fun b hb => h b (List.mem_cons_of_mem _ hb)⟩

theorem legible_ofNats (ns : List Nat) : (ofNats ns).Legible :=
  legible_ofList fun n _ => legible_ofNat n

theorem legible_ofFields {fields : List (String × Json)} (h : ∀ x ∈ fields, x.2.Legible) :
    (ofFields fields).Legible := by
  refine ⟨?_, rfl⟩
  induction fields with
  | nil => trivial
  | cons x fields ih =>
    exact ⟨rfl, h x List.mem_cons_self, ih fun y hy => h y (List.mem_cons_of_mem _ hy)⟩

theorem legible_argument (a : Argument) : a.toJson.Legible := by
  apply legible_ofFields
  obtain ⟨value, name, derivative⟩ := a
  cases name <;> cases derivative <;> simp [legible_ofNat, legible_ofString, Legible]

theorem legible_binding (b : Binding) : b.toJson.Legible := by
  apply legible_ofFields
  obtain ⟨id, name, value, dependsOn⟩ := b
  cases dependsOn <;> simp [legible_ofNat, legible_ofString, legible_ofNats]

theorem legible_tag (t : DerivativeTag) : t.toJson.Legible := by
  apply legible_ofFields
  simp [legible_ofNat, legible_ofString]

theorem legible_parameters (op : Operation) : (ofFields op.parameters).Legible := by
  apply legible_ofFields
  cases op <;> simp [Operation.parameters, legible_ofNats, legible_ofString]

/-- A constant that stands for its number is a numeral, and numerals of numbers are legible. -/
theorem legible_literal {x : Float} (h : ExactInDocument x) : (literalJson x).Legible := by
  obtain ⟨n, hNumeral, -⟩ := h
  have hJson : literalJson x = .number n := by
    rw [literalJson, hNumeral]
    rfl
  rw [hJson]
  exact legible_documentNumeral hNumeral

theorem legible_value {v : Value} (h : ∀ x ∈ v.literal?, ExactInDocument x) (id : ValueId) :
    (v.toJson id).Legible := by
  apply legible_ofFields
  obtain ⟨content, shape⟩ := v
  cases content with
  | leaf => simp [legible_ofNat, legible_ofString, legible_ofNats]
  | literal x => simp [legible_ofNat, legible_ofString, legible_literal (h x rfl)]
  | op op operands =>
    have hParameters := legible_parameters op
    cases hEmpty : op.parameters.isEmpty <;>
      simp [hEmpty, hParameters, legible_ofNat, legible_ofString, legible_ofNats]

end Legible

/-! ## Traces -/

/-- **The document of a trace is legible**, whatever its names are. -/
theorem Trace.legible_toJson {t : Trace}
    (h : ∀ {v x}, t.graph.literal? v = some x → ExactInDocument x) : t.toJson.Legible := by
  have hArguments : (Json.ofList (t.arguments.map Argument.toJson)).Legible :=
    legible_ofList fun a _ => legible_argument a
  -- Only the literals of the graph can fail to be written; everything else is a name or a number.
  have hValues : (Json.ofList (t.graph.toList.zipIdx.map fun x => x.1.toJson x.2)).Legible := by
    apply legible_ofList
    rintro ⟨value, v⟩ hMem
    have hGet : t.graph.get? v = some value := by
      simpa [Graph.get?, Graph.toList] using List.mem_zipIdx_iff_getElem?.mp hMem
    apply legible_value
    intro x hx
    have hLiteral : t.graph.literal? v = some x := by
      rw [Graph.literal?, hGet]
      exact hx
    exact h hLiteral
  have hBindings : (Json.ofList (t.bindings.map Binding.toJson)).Legible :=
    legible_ofList fun b _ => legible_binding b
  have hTags : (Json.ofList (t.tags.map DerivativeTag.toJson)).Legible :=
    legible_ofList fun tag _ => legible_tag tag
  apply legible_ofFields
  simp [legible_ofString, legible_ofNats, hArguments, hValues, hBindings, hTags]

/-- **The document of a trace is decoded to the draft of the trace.** -/
theorem Trace.ofJson_toJson {t : Trace} (h : t.Storable) :
    TraceDraft.ofJson t.toJson = .ok t.toDraft := by
  -- Each list comes back item by item. The indices are small enough to be read as they are written.
  have hArguments : (Json.ofList (t.arguments.map Argument.toJson)).asList decodeArgument =
      .ok t.arguments := by
    have hAll := Json.asList_ofList (f := id) fun a ha => decodeArgument_toJson (h.argument a ha)
    rwa [List.map_id] at hAll
  have hValues : (Json.ofList (t.graph.toList.zipIdx.map fun x => x.1.toJson x.2)).asList
      decodeValue = .ok t.graph.toDrafts := by
    apply Json.asList_ofList
    rintro ⟨value, v⟩ hMem
    have hGet : t.graph.get? v = some value := by
      simpa [Graph.get?, Graph.toList] using List.mem_zipIdx_iff_getElem?.mp hMem
    have hId : IsDocumentId v := Nat.lt_of_lt_of_le (Graph.lt_size_of_get? hGet) h.size_le
    exact decodeValue_toJson (h.value hGet) hId
  have hBindings : (Json.ofList (t.bindings.map Binding.toJson)).asList decodeBinding =
      .ok (t.bindings.map Binding.toDraft) :=
    Json.asList_ofList fun b hb => decodeBinding_toJson (h.binding b hb).1 (h.binding b hb).2
  have hTags : (Json.ofList (t.tags.map DerivativeTag.toJson)).asList decodeTag = .ok t.tags := by
    have hAll := Json.asList_ofList (f := id) fun tag hTag =>
      decodeTag_toJson (h.tag tag hTag).1 (h.tag tag hTag).2
    rwa [List.map_id] at hAll
  have hOutputs : decodeIds (Json.ofNats t.outputs) = .ok t.outputs :=
    Json.decodeIds_ofNats h.output
  rw [TraceDraft.ofJson, Trace.toJson, Json.decodeFields_ofFields]
  simp [TraceFields.take, Json.asString_ofString, Json.once_none, Json.required_some, hArguments,
    hValues, hBindings, hTags, hOutputs, Trace.toDraft, bind, Except.bind, pure, Except.pure]

end ArrayEquations
