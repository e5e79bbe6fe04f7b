import ArrayEquations.Interchange.Import
import ArrayEquations.Proofs.Evaluation
import ArrayEquations.Proofs.ShapeRules

/-!
# ArrayEquations — well-formed traces

A graph is well-formed if constants are scalars and each operation stands after its
operands, with a shape that follows from theirs. A trace is well-formed if moreover its
arguments are exactly the inputs of the graph, its outputs exist, and its bindings can be
collected anew. These are the facts that every other proof starts from, and what the
checks of an import establish.

Foreign operations may have any operands and any shape.

## Main definitions

* `Operation.Fits` — an operation can have a result of a shape on operands of given shapes.
* `Graph.WellFormed`, `Trace.WellFormed`.

## Main results

* `Operation.fits_of_resultShape` — the shape rules are sound for `Operation.Fits`.
* `Trace.wellFormed_of_ofDraft` — an imported trace is well-formed.
-/

namespace ArrayEquations

/-! ## Operations that fit their operands -/

/-- The operation can have a result of the last shape on operands of the shapes given. -/
inductive Operation.Fits : Operation → List Shape → Shape → Prop
  | arith {op : Arith} {a b out : Shape} (h : a.broadcast b = .ok out) :
      Fits (.arith op) [a, b] out
  | neg {a : Shape} : Fits .neg [a] a
  | call {f : NamedFunction} {a : Shape} : Fits (.call f) [a] a
  | indicator {c : Comparison} {a b out : Shape} (h : a.broadcast b = .ok out) :
      Fits (.indicator c) [a, b] out
  | accumulate {a b out : Shape} (h : a.broadcast b = .ok out) : Fits .accumulate [a, b] out
  | contract {axes : ContractionAxes} {a b : Shape} (h : axes.Pairable a b) :
      Fits (.contract axes) [a, b] (axes.outShape a b)
  | reduceSum {axes : List Nat} {a : Shape} (hLt : ∀ x ∈ axes, x < a.rank)
      (hNodup : axes.Nodup) :
      Fits (.reduceSum axes) [a] ((a.axes.filter fun x => !axes.contains x).map a.extent)
  | broadcast {dims : List Nat} {a out : Shape} (h : a.Stretches dims out) :
      Fits (.broadcast dims) [a] out
  | transpose {permutation : List Nat} {a : Shape} (hLength : permutation.length = a.rank)
      (hLt : ∀ x ∈ permutation, x < a.rank) (hNodup : permutation.Nodup) :
      Fits (.transpose permutation) [a] (permutation.map a.extent)
  | reshape {a out : Shape} (h : a.size = out.size) : Fits .reshape [a] out
  | cast {dtype : String} {a : Shape} : Fits (.cast dtype) [a] a
  | foreign {name : String} {operands : List Shape} {out : Shape} :
      Fits (.foreign name) operands out

theorem eq_singleton_of_map {α β : Type*} {f : α → β} {l : List α} {b : β}
    (h : l.map f = [b]) : ∃ x, l = [x] ∧ f x = b := by
  obtain ⟨x, rfl, hx⟩ := List.map_eq_singleton_iff.mp h
  exact ⟨x, rfl, hx⟩

theorem eq_pair_of_map {α β : Type*} {f : α → β} {l : List α} {b c : β}
    (h : l.map f = [b, c]) : ∃ x y, l = [x, y] ∧ f x = b ∧ f y = c := by
  obtain ⟨x, l, rfl, hx, h⟩ := List.map_eq_cons_iff.mp h
  obtain ⟨y, rfl, hy⟩ := eq_singleton_of_map h
  exact ⟨x, y, rfl, hx, hy⟩

/-- An operand is before its operation, also one that is asked for and not there. -/
theorem getD_lt_of_forall_lt {operands : List ValueId} {n : Nat} (hn : 0 < n)
    (h : ∀ w ∈ operands, w < n) (k : Nat) : operands.getD k 0 < n := by
  rw [List.getD_eq_getElem?_getD]
  cases hGet : operands[k]? with
  | none => exact hn
  | some w => exact h w (List.mem_of_getElem? hGet)

namespace Operation

/-- The operations that work entry by entry on operands with the last axes aligned. -/
def isElementwise : Operation → Bool
  | .arith _ | .neg | .call _ | .indicator _ | .accumulate => true
  | _ => false

theorem onOne_eq_ok {op : Operation} {rule : Shape → Except ShapeError Shape}
    {operands : List Shape} {out : Shape} (h : op.onOne rule operands = .ok out) :
    ∃ a, operands = [a] ∧ rule a = .ok out := by
  unfold onOne at h
  split at h
  · exact ⟨_, rfl, h⟩
  · exact absurd h (by simp)

theorem onTwo_eq_ok {op : Operation} {rule : Shape → Shape → Except ShapeError Shape}
    {operands : List Shape} {out : Shape} (h : op.onTwo rule operands = .ok out) :
    ∃ a b, operands = [a, b] ∧ rule a b = .ok out := by
  unfold onTwo at h
  split at h
  · exact ⟨_, _, rfl, h⟩
  · exact absurd h (by simp)

/-- A shape that follows from the operands' shapes fits them. -/
theorem fits_of_resultShape {op : Operation} {operands : List Shape} {out : Shape}
    (h : op.resultShape operands = .ok out) : op.Fits operands out := by
  cases op with
  | arith op =>
    obtain ⟨a, b, rfl, h⟩ := onTwo_eq_ok h
    exact .arith h
  | neg =>
    obtain ⟨a, rfl, h⟩ := onOne_eq_ok h
    obtain rfl := Except.ok.inj h
    exact .neg
  | call f =>
    obtain ⟨a, rfl, h⟩ := onOne_eq_ok h
    obtain rfl := Except.ok.inj h
    exact .call
  | indicator c =>
    obtain ⟨a, b, rfl, h⟩ := onTwo_eq_ok h
    exact .indicator h
  | contract axes =>
    obtain ⟨a, b, rfl, h⟩ := onTwo_eq_ok h
    obtain ⟨hPairable, rfl⟩ := ContractionAxes.resultShape_eq_ok.mp h
    exact .contract hPairable
  | reduceSum axes =>
    obtain ⟨a, rfl, h⟩ := onOne_eq_ok h
    obtain ⟨⟨hLt, hNodup⟩, rfl⟩ := sumShape_eq_ok.mp h
    exact .reduceSum hLt hNodup
  | broadcast dims => exact absurd h (by simp [resultShape])
  | transpose permutation =>
    obtain ⟨a, rfl, h⟩ := onOne_eq_ok h
    obtain ⟨⟨hLength, hLt, hNodup⟩, rfl⟩ := transposeShape_eq_ok.mp h
    exact .transpose hLength hLt hNodup
  | reshape => exact absurd h (by simp [resultShape])
  | cast dtype =>
    obtain ⟨a, rfl, h⟩ := onOne_eq_ok h
    obtain rfl := Except.ok.inj h
    exact .cast
  | accumulate =>
    obtain ⟨a, b, rfl, h⟩ := onTwo_eq_ok h
    exact .accumulate h
  | foreign name => exact .foreign

end Operation

/-! ## Graphs -/

namespace Graph

/-- The value may be the next one of the graph. -/
def Accepts (g : Graph) (value : Value) : Prop :=
  match value.content with
  | .leaf => True
  | .literal _ => value.shape = []
  | .op op operands =>
    (∀ w ∈ operands, w < g.size) ∧ op.Fits (operands.map g.shape) value.shape

/-- Constants are scalars, and operations come after operands that they fit. -/
structure WellFormed (g : Graph) : Prop where
  literal_shape : ∀ {v x s}, g.get? v = some ⟨.literal x, s⟩ → s = []
  before : ∀ {v op operands s}, g.get? v = some ⟨.op op operands, s⟩ → ∀ w ∈ operands, w < v
  fits : ∀ {v op operands s}, g.get? v = some ⟨.op op operands, s⟩ →
    op.Fits (operands.map g.shape) s

theorem ordered_of_before {g : Graph} (h : ∀ {v op operands s},
    g.get? v = some ⟨.op op operands, s⟩ → ∀ w ∈ operands, w < v) : g.Ordered := by
  intro v w hw
  cases hGet : g.get? v with
  | none => simp [operands, hGet] at hw
  | some value =>
    rw [operands_of_get? hGet] at hw
    obtain ⟨content, s⟩ := value
    cases content with
    | op op operands => exact h hGet w hw
    | leaf | literal x => exact absurd hw List.not_mem_nil

theorem WellFormed.ordered {g : Graph} (h : g.WellFormed) : g.Ordered := ordered_of_before h.before

theorem wellFormed_empty : empty.WellFormed :=
  ⟨fun h => absurd h (by simp [get?, empty]), fun h => absurd h (by simp [get?, empty]),
    fun h => absurd h (by simp [get?, empty])⟩

/-- A value of the graph with one more value is one of before or the new one. -/
theorem get?_push {g : Graph} {v : ValueId} {value new : Value}
    (h : (g.push new).get? v = some value) :
    g.get? v = some value ∨ v = g.size ∧ value = new := by
  have hSize := lt_size_of_get? h
  rw [size_push] at hSize
  by_cases hv : v < g.size
  · left
    rwa [get?_push_lt new hv] at h
  · obtain rfl : v = g.size :=
      Nat.le_antisymm (Nat.lt_succ_iff.mp hSize) (Nat.not_lt.mp hv)
    rw [get?_push_size] at h
    exact Or.inr ⟨rfl, (Option.some.inj h).symm⟩

theorem map_shape_push {g : Graph} (new : Value) {operands : List ValueId}
    (h : ∀ w ∈ operands, w < g.size) :
    operands.map (g.push new).shape = operands.map g.shape :=
  List.map_congr_left fun w hw => (Extends.push g new).shape_eq (h w hw)

/-- An accepted value keeps the graph well-formed. -/
theorem WellFormed.push {g : Graph} (h : g.WellFormed) {new : Value} (hNew : g.Accepts new) :
    (g.push new).WellFormed := by
  refine ⟨?_, ?_, ?_⟩
  · intro v x s hGet
    rcases get?_push hGet with hOld | ⟨-, rfl⟩
    · exact h.literal_shape hOld
    · exact hNew
  · intro v op operands s hGet
    rcases get?_push hGet with hOld | ⟨rfl, rfl⟩
    · exact h.before hOld
    · exact hNew.1
  · intro v op operands s hGet
    rcases get?_push hGet with hOld | ⟨rfl, rfl⟩
    · rw [map_shape_push new fun w hw =>
        Nat.lt_trans (h.before hOld w hw) (lt_size_of_get? hOld)]
      exact h.fits hOld
    · rw [map_shape_push _ hNew.1]
      exact hNew.2

theorem op?_eq_some {g : Graph} {v : ValueId} {op : Operation} {operands : List ValueId}
    (h : g.op? v = some (op, operands)) :
    g.get? v = some ⟨.op op operands, g.shape v⟩ := by
  obtain ⟨value, hGet, hOp⟩ := Option.bind_eq_some_iff.mp h
  rw [shape_of_get? hGet, hGet]
  unfold Value.op? at hOp
  split at hOp
  · rename_i hContent
    obtain ⟨rfl, rfl⟩ := Prod.mk.inj (Option.some.inj hOp)
    rw [← hContent]
  · exact absurd hOp (by simp)

theorem op?_of_get? {g : Graph} {v : ValueId} {op : Operation} {operands : List ValueId}
    {s : Shape} (h : g.get? v = some ⟨.op op operands, s⟩) : g.op? v = some (op, operands) := by
  rw [op?, h]
  rfl

theorem operands_of_op? {g : Graph} {v : ValueId} {op : Operation} {operands : List ValueId}
    (h : g.op? v = some (op, operands)) : g.operands v = operands := by
  rw [Graph.operands, op?_eq_some h]
  rfl

theorem literal?_eq_some {g : Graph} {v : ValueId} {x : Float} (h : g.literal? v = some x) :
    g.get? v = some ⟨.literal x, g.shape v⟩ := by
  obtain ⟨value, hGet, hLiteral⟩ := Option.bind_eq_some_iff.mp h
  rw [shape_of_get? hGet, hGet]
  unfold Value.literal? at hLiteral
  split at hLiteral
  · rename_i hContent
    obtain rfl := Option.some.inj hLiteral
    rw [← hContent]
  · exact absurd hLiteral (by simp)

theorem isLeaf_eq_true {g : Graph} {v : ValueId} (h : g.isLeaf v = true) :
    g.get? v = some ⟨.leaf, g.shape v⟩ := by
  obtain ⟨value, hGet, hLeaf⟩ := (Option.any_eq_true _ _).mp h
  have hGet : g.get? v = some value := hGet
  rw [shape_of_get? hGet, hGet]
  unfold Value.isLeaf at hLeaf
  split at hLeaf
  · rename_i hContent
    rw [← hContent]
  · exact absurd hLeaf (by simp)

theorem map_shape_tensor {R : Type*} [CommRing R] (I : Interpretation R)
    (inputs : ValueId → Position → R) (g : Graph) (operands : List ValueId) :
    (operands.map (g.tensor I inputs)).map (·.shape) = operands.map g.shape := by
  rw [List.map_map]
  rfl

theorem fits_tensors {R : Type*} [CommRing R] (I : Interpretation R)
    (inputs : ValueId → Position → R) {g : Graph} {op : Operation} {operands : List ValueId}
    {out : Shape} (h : op.Fits (operands.map g.shape) out) :
    op.Fits ((operands.map (g.tensor I inputs)).map (·.shape)) out := by
  rwa [map_shape_tensor]

/-- No operation of the graph is foreign. -/
def HasRules (g : Graph) : Prop := ∀ v name operands, g.op? v ≠ some (.foreign name, operands)

/-- The form in which a recording leaves elementwise operations: every operand that is not a
constant has been stretched to the shape of the result. -/
def Recorded (g : Graph) : Prop :=
  ∀ {v op operands s}, g.get? v = some ⟨.op op operands, s⟩ → op.isElementwise = true →
    ∀ w ∈ operands, g.literal? w = none → g.shape w = s

end Graph

/-! ## Traces -/

/-- The graph is well-formed, its inputs are exactly the arguments, and the annotations speak
of values that exist. -/
structure Trace.WellFormed (t : Trace) : Prop where
  graph : t.graph.WellFormed
  leaf_of_argument : ∀ a ∈ t.arguments, t.graph.isLeaf a.value = true
  nodup_arguments : (t.arguments.map (·.value)).Nodup
  argument_of_leaf : ∀ v, t.graph.isLeaf v = true → v ∈ t.arguments.map (·.value)
  outputs_ne_nil : t.outputs ≠ []
  output_lt : ∀ o ∈ t.outputs, o < t.graph.size
  bindings : replayBindings t.graph t.bindings = .ok t.bindings

/-! ## Steps that may fail -/

/-- What every step of a chain of checks preserves, the whole chain preserves. -/
theorem foldlM_preserves {ε α σ : Type} {f : σ → α → Except ε σ} {P : σ → Prop}
    (hStep : ∀ s a s', P s → f s a = .ok s' → P s') {as : List α} {s s' : σ} (hStart : P s)
    (h : as.foldlM f s = .ok s') : P s' := by
  induction as generalizing s with
  | nil =>
    obtain rfl := Except.ok.inj h
    exact hStart
  | cons a as ih =>
    rw [List.foldlM_cons] at h
    cases hOne : f s a with
    | error e =>
      rw [hOne] at h
      exact absurd h (by simp [bind, Except.bind])
    | ok s₁ =>
      rw [hOne] at h
      exact ih (hStep s a s₁ hStart hOne) h

/-- If two steps one after the other succeed then both do. -/
theorem bind_eq_ok.{u, v} {ε : Type u} {α β : Type v} {m : Except ε α} {f : α → Except ε β} {b : β}
    (h : m >>= f = .ok b) : ∃ a, m = .ok a ∧ f a = .ok b := by
  cases m with
  | error e => exact absurd h (by simp [bind, Except.bind])
  | ok a => exact ⟨a, rfl, h⟩

theorem mapError_eq_ok {ε ε' α : Type} {m : Except ε α} {f : ε → ε'} {a : α}
    (h : m.mapError f = .ok a) : m = .ok a := by
  cases m with
  | error e => exact absurd h (by simp [Except.mapError])
  | ok b =>
    obtain rfl := Except.ok.inj h
    rfl

theorem mapM_eq_ok {ε α β : Type} {f : α → Except ε β} {g : α → β} {as : List α}
    (h : ∀ a ∈ as, f a = .ok (g a)) : as.mapM f = .ok (as.map g) := by
  induction as with
  | nil => rfl
  | cons a as ih =>
    rw [List.mapM_cons, h a List.mem_cons_self, ih fun b hb => h b (List.mem_cons_of_mem _ hb)]
    rfl

/-- Steps that all succeed have their results in order. -/
theorem forall₂_of_mapM_eq_ok {ε α β : Type} {f : α → Except ε β} {as : List α} {bs : List β}
    (h : as.mapM f = .ok bs) : List.Forall₂ (fun a b => f a = .ok b) as bs := by
  induction as generalizing bs with
  | nil =>
    obtain rfl := Except.ok.inj h
    exact .nil
  | cons a as ih =>
    rw [List.mapM_cons] at h
    obtain ⟨b, hFirst, h⟩ := bind_eq_ok h
    obtain ⟨bs', hRest, h⟩ := bind_eq_ok h
    obtain rfl := Except.ok.inj h
    exact .cons hFirst (ih hRest)

/-- Each item on the right of a pairing is beside one on the left. -/
theorem exists_beside_of_forall₂ {α β : Type*} {R : α → β → Prop} {as : List α} {bs : List β}
    (h : List.Forall₂ R as bs) {b : β} (hb : b ∈ bs) : ∃ a ∈ as, R a b := by
  induction h with
  | nil => exact absurd hb List.not_mem_nil
  | @cons a b' as bs hFirst _ ih =>
    rcases List.mem_cons.mp hb with rfl | hb
    · exact ⟨a, List.mem_cons_self, hFirst⟩
    · obtain ⟨a', ha', hR⟩ := ih hb
      exact ⟨a', List.mem_cons_of_mem a ha', hR⟩

/-- Steps that have but one error have it together if one of them has it. -/
theorem mapM_eq_error {ε α β : Type} {f : α → Except ε β} {e : ε} {as : List α} {a : α}
    (ha : a ∈ as) (h : f a = .error e) (hOnly : ∀ a' e', f a' = .error e' → e' = e) :
    as.mapM f = .error e := by
  induction as with
  | nil => exact absurd ha List.not_mem_nil
  | cons a' as ih =>
    rw [List.mapM_cons]
    cases hFirst : f a' with
    | error e' => rw [hOnly a' e' hFirst]; rfl
    | ok b =>
      have hLater : a ∈ as := (List.mem_cons.mp ha).resolve_left fun hEq => by
        rw [← hEq, h] at hFirst
        exact absurd hFirst (by simp)
      rw [ih hLater]
      rfl

/-! ## Imported traces -/

section Import

/-- The primitives that state their result have one operand. -/
private theorem arity_of_stated : ∀ spec ∈ primitives,
    spec.family = .broadcast ∨ spec.family = .reshape → spec.arity = 1 := by
  decide

theorem importOperation_arity {primitive : String} {parameters : ParameterDraft}
    {operands : List Shape} {op : Operation}
    (h : importOperation primitive parameters operands = .ok op)
    (hStated : (∃ dims, op = .broadcast dims) ∨ op = .reshape) : ∃ a, operands = [a] := by
  unfold importOperation at h
  split at h
  · obtain rfl := Except.ok.inj h
    rcases hStated with ⟨dims, hEq⟩ | hEq <;> exact absurd hEq (by simp)
  · rename_i spec hSpec
    split at h
    · exact absurd h (by simp)
    · -- The table gives the two families whose shape is stated an arity of one.
      rename_i hArity
      have hFamily : spec.family = .broadcast ∨ spec.family = .reshape := by
        unfold operationOf at h
        cases hCase : spec.family with
        | broadcast => exact Or.inl rfl
        | reshape => exact Or.inr rfl
        | contract =>
          rw [hCase] at h
          obtain ⟨lhs, -, h⟩ := bind_eq_ok h
          obtain ⟨rhs, -, h⟩ := bind_eq_ok h
          obtain rfl := Except.ok.inj h
          simp at hStated
        | _ =>
          rw [hCase] at h
          obtain rfl := Except.ok.inj h
          simp at hStated
      have hMem : spec ∈ primitives := List.mem_of_find?_eq_some hSpec
      rw [arity_of_stated spec hMem hFamily] at hArity
      exact List.length_eq_one_iff.mp (by omega)

/-- A shape that passes the check of an import fits the operands. -/
private theorem fits_of_checkStatedShape {primitive : String} {parameters : ParameterDraft}
    {id : ValueId} {operands : List Shape} {op : Operation} {out : Shape}
    (hOp : importOperation primitive parameters operands = .ok op)
    (h : checkStatedShape id op operands out = .ok ()) : op.Fits operands out := by
  unfold checkStatedShape at h
  split at h
  · rename_i dims
    obtain ⟨a, rfl⟩ := importOperation_arity hOp (Or.inl ⟨dims, rfl⟩)
    exact .broadcast (Shape.checkBroadcast_eq_ok.mp (mapError_eq_ok h))
  · obtain ⟨a, rfl⟩ := importOperation_arity hOp (Or.inr rfl)
    exact .reshape (Shape.checkReshape_eq_ok.mp (mapError_eq_ok h))
  · exact .foreign
  · split at h
    · exact absurd h (by simp)
    · rename_i inferred hInferred
      split at h
      · rename_i hEq
        exact Operation.fits_of_resultShape (hEq ▸ hInferred)
      · exact absurd h (by simp)

/-- What an import makes of a draft: an input, a constant, or an operation on values before it
that passes the check of its shape. -/
theorem importValue_cases {g : Graph} {draft : ValueDraft} {value : Value}
    (h : importValue g draft = .ok value) :
    (∃ s, value = ⟨.leaf, s⟩) ∨ (∃ x, value = ⟨.literal x, []⟩) ∨
      ∃ primitive parameters op operands s, value = ⟨.op op operands, s⟩ ∧
        (∀ w ∈ operands, w < g.size) ∧
        importOperation primitive parameters (operands.map g.shape) = .ok op ∧
        checkStatedShape g.size op (operands.map g.shape) s = .ok () := by
  unfold importValue at h
  simp only at h
  split at h
  · exact absurd h (by simp [throw, throwThe, MonadExceptOf.throw, bind, Except.bind])
  rename_i hId
  rw [ne_eq, not_not] at hId
  cases draft with
  | leaf id shape => exact Or.inl ⟨shape, (Except.ok.inj h).symm⟩
  | literal id x => exact Or.inr (Or.inl ⟨x, (Except.ok.inj h).symm⟩)
  | op id primitive operands shape parameters =>
    simp only at h
    split at h
    · exact absurd h (by simp [throw, throwThe, MonadExceptOf.throw, bind, Except.bind])
    · rename_i hFind
      obtain ⟨op, hOp, h⟩ := bind_eq_ok h
      obtain ⟨⟨⟩, hShape, h⟩ := bind_eq_ok h
      -- The search for an operand not yet defined came back empty.
      have hLt : ∀ w ∈ operands, w < g.size := by
        intro w hw
        have hNone := Option.eq_none_iff_forall_ne_some.mpr hFind
        have hNot := List.find?_eq_none.mp hNone w hw
        rw [decide_eq_true_eq] at hNot
        exact hId ▸ Nat.not_le.mp hNot
      rw [hId] at hShape
      exact Or.inr (Or.inr ⟨primitive, parameters, op, operands, shape, (Except.ok.inj h).symm,
        hLt, hOp, hShape⟩)

private theorem accepts_of_importValue {g : Graph} {draft : ValueDraft} {value : Value}
    (h : importValue g draft = .ok value) : g.Accepts value := by
  obtain ⟨s, rfl⟩ | ⟨x, rfl⟩ | ⟨_, _, op, operands, s, rfl, hLt, hOp, hShape⟩ :=
    importValue_cases h
  · trivial
  · rfl
  · exact ⟨hLt, fits_of_checkStatedShape hOp hShape⟩

theorem wellFormed_of_importGraph {values : List ValueDraft} {g : Graph}
    (h : importGraph values = .ok g) : g.WellFormed := by
  refine foldlM_preserves ?_ Graph.wellFormed_empty h
  intro g draft g' hg hStep
  obtain ⟨value, hValue, hStep⟩ := bind_eq_ok hStep
  obtain rfl := Except.ok.inj hStep
  exact hg.push (accepts_of_importValue hValue)

theorem checkArguments_eq_ok {g : Graph} {seen : List ValueId} {arguments : List Argument} :
    checkArguments g seen arguments = .ok () ↔
      (∀ a ∈ arguments, g.isLeaf a.value = true ∧ a.value ∉ seen) ∧
        (arguments.map (·.value)).Nodup := by
  induction arguments generalizing seen with
  | nil => simp [checkArguments]
  | cons a rest ih =>
    rw [checkArguments, List.forall_mem_cons, List.map_cons, List.nodup_cons]
    by_cases hLeaf : g.isLeaf a.value = true
    · rw [if_neg (by simp [hLeaf])]
      by_cases hSeen : a.value ∈ seen
      · rw [if_pos (by simpa using hSeen)]
        simp [hSeen]
      · rw [if_neg (by simpa using hSeen), ih]
        -- A later argument is not seen again iff it differs from this one.
        have hLater : (∀ b ∈ rest, b.value ∉ a.value :: seen) ↔
            (∀ b ∈ rest, b.value ∉ seen) ∧ a.value ∉ rest.map (·.value) := by
          simp only [List.mem_cons, not_or, List.mem_map, not_exists, not_and]
          constructor
          · intro h
            exact ⟨fun b hb => (h b hb).2, fun b hb hEq => (h b hb).1 hEq⟩
          · rintro ⟨hSeen, hNe⟩ b hb
            exact ⟨hNe b hb, hSeen b hb⟩
        simp only [forall_and, hLater, hLeaf, hSeen, not_false_eq_true, and_self, true_and]
        tauto
    · rw [if_pos (by simpa using hLeaf)]
      simp [hLeaf]

theorem checkLeaves_eq_ok {g : Graph} {arguments : List Argument} :
    checkLeaves g arguments = .ok () ↔
      ∀ v, g.isLeaf v = true → v ∈ arguments.map (·.value) := by
  -- The check passes exactly if the search for a leaf without an argument finds none.
  have hAll : checkLeaves g arguments = .ok () ↔
      g.ids.find? (fun v => g.isLeaf v && !arguments.any (·.value == v)) = none := by
    unfold checkLeaves
    cases g.ids.find? fun v => g.isLeaf v && !arguments.any (·.value == v) with
    | none => exact iff_of_true rfl rfl
    | some v => exact iff_of_false (by simp) (by simp)
  rw [hAll, List.find?_eq_none]
  constructor
  · intro h v hLeaf
    have hv : v < g.size := Graph.lt_size_of_get? (Graph.isLeaf_eq_true hLeaf)
    simpa [hLeaf] using h v (List.mem_range.mpr hv)
  · intro h v _ hTest
    obtain ⟨hLeaf, hNone⟩ := Bool.and_eq_true_iff.mp hTest
    obtain ⟨a, ha, hEq⟩ := List.mem_map.mp (h v hLeaf)
    have hAny : arguments.any (·.value == v) = true :=
      List.any_eq_true.mpr ⟨a, ha, beq_iff_eq.mpr hEq⟩
    rw [hAny] at hNone
    exact Bool.noConfusion hNone

theorem checkTags_eq_ok {g : Graph} {tags : List DerivativeTag} :
    checkTags g tags = .ok () ↔ ∀ t ∈ tags, t.primal < g.size ∧ t.value < g.size := by
  have hAll : checkTags g tags = .ok () ↔
      tags.find? (fun t => !(g.has t.primal && g.has t.value)) = none := by
    unfold checkTags
    cases tags.find? fun t => !(g.has t.primal && g.has t.value) with
    | none => exact iff_of_true rfl rfl
    | some t => exact iff_of_false (by simp) (by simp)
  rw [hAll, List.find?_eq_none]
  simp [Graph.has]

theorem checkOutputs_eq_ok {g : Graph} {outputs : List ValueId} :
    checkOutputs g outputs = .ok () ↔ outputs ≠ [] ∧ ∀ o ∈ outputs, o < g.size := by
  have hAll : outputs.find? (!g.has ·) = none ↔ ∀ o ∈ outputs, o < g.size := by
    rw [List.find?_eq_none]
    simp [Graph.has]
  unfold checkOutputs
  rw [← hAll, ne_eq, ← List.isEmpty_iff]
  by_cases hEmpty : outputs.isEmpty = true
  · rw [if_pos hEmpty]
    exact iff_of_false (by simp) fun h => h.1 hEmpty
  · rw [if_neg hEmpty]
    cases outputs.find? (!g.has ·) with
    | none => exact iff_of_true rfl ⟨hEmpty, rfl⟩
    | some v => exact iff_of_false (by simp) fun h => absurd h.2 (by simp)

private theorem replay_of_importBindings {g : Graph} {drafts : List BindingDraft}
    {bindings : List Binding} (h : importBindings g drafts = .ok bindings) :
    replayBindings g bindings = .ok bindings := by
  refine foldlM_preserves (P := fun bs => replayBindings g bs = .ok bs) ?_ rfl h
  intro bs draft bs' hReplay hStep
  have hAdd := mapError_eq_ok hStep
  have hAdd' := hAdd
  unfold addBinding at hAdd
  obtain ⟨⟨⟩, -, hAdd⟩ := bind_eq_ok hAdd
  obtain rfl := Except.ok.inj hAdd
  rw [replayBindings] at hReplay ⊢
  rw [List.foldlM_append, hReplay]
  show addBinding g bs draft.value draft.name draft.dependsOn >>= pure = _
  rw [hAdd']
  rfl

/-- **A trace that passes the checks of an import is well-formed.** -/
theorem Trace.wellFormed_of_ofDraft {draft : TraceDraft} {t : Trace}
    (h : Trace.ofDraft draft = .ok t) : t.WellFormed := by
  unfold Trace.ofDraft at h
  obtain ⟨g, hGraph, h⟩ := bind_eq_ok h
  obtain ⟨⟨⟩, hArguments, h⟩ := bind_eq_ok h
  obtain ⟨⟨⟩, hLeaves, h⟩ := bind_eq_ok h
  obtain ⟨⟨⟩, -, h⟩ := bind_eq_ok h
  obtain ⟨⟨⟩, hOutputs, h⟩ := bind_eq_ok h
  obtain ⟨bindings, hBindings, h⟩ := bind_eq_ok h
  obtain rfl := Except.ok.inj h
  obtain ⟨hAll, hNodup⟩ := checkArguments_eq_ok.mp hArguments
  obtain ⟨hNonempty, hLt⟩ := checkOutputs_eq_ok.mp hOutputs
  exact ⟨wellFormed_of_importGraph hGraph, fun a ha => (hAll a ha).1, hNodup,
    checkLeaves_eq_ok.mp hLeaves, hNonempty, hLt,
    replay_of_importBindings hBindings⟩

end Import

end ArrayEquations
