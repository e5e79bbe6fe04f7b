import ArrayEquations.Proofs.DerivedRecorder

/-!
# ArrayEquations — what a forward differentiation adds

The derived trace has the values, arguments, bindings and outputs of its trace, and more of
them. Every tangent is a new value: no rule of the forward direction hands on a value of
before. So the new tags say nothing about the values of the trace, except of what they are the
primal.

## Main definitions

* `Trace.DerivesForward` — what a forward differentiation makes of a trace.

## Main results

* `Forward.leaves_tangentOf` — the tangent of an operation is new.
* `Trace.derivesForward` — every forward derivative of a trace is such.
-/

namespace ArrayEquations

open Recording Differentiating

namespace Forward

/-! ## Tangents -/

variable {r : Recorder} {n : Nat} {ta tb : Option ValueId} {a b out : ValueId}

/-- The tangent, if there is one, is a value that was not there at the start. -/
def IsNew (n : Nat) (tangent : Option ValueId) (r : Recorder) : Prop :=
  ∀ t ∈ tangent, n ≤ t ∧ t < r.graph.size

theorem IsNew.extend {r' : Recorder} (h : IsNew n ta r) (hDerives : r.Derives r') :
    IsNew n ta r' :=
  fun t ht => ⟨(h t ht).1, hDerives.lt (h t ht).2⟩

/-- The action adds values and yields a new one, if any. -/
def Renews (n : Nat) (m : Recording (Option ValueId)) (r : Recorder) : Prop :=
  n ≤ r.graph.size → Ensures m r fun t r' => r.Derives r' ∧ IsNew n t r'

theorem renews_pure (h : IsNew n ta r) : Renews n (pure ta) r :=
  fun _ => ⟨Recorder.Derives.refl r, h⟩

theorem renews_none : Renews n (pure none) r := renews_pure fun _ ht => absurd ht (by simp)

theorem Renews.bind {m : Recording (Option ValueId)}
    {f : Option ValueId → Recording (Option ValueId)} (h : Renews n m r)
    (hNext : ∀ t r', r.Derives r' → IsNew n t r' → Renews n (f t) r') :
    Renews n (m >>= f) r := by
  intro hn
  apply Ensures.bind (h hn)
  rintro t r₁ ⟨hDerives₁, ht⟩
  apply (hNext t r₁ hDerives₁ ht (Nat.le_trans hn hDerives₁.graph.size_le)).imp
  rintro t' r₂ ⟨hDerives₂, ht'⟩
  exact ⟨hDerives₁.trans_plain hDerives₂, ht'⟩

theorem renews_some {m : Recording ValueId} (h : Makes [] m r) : Renews n (some <$> m) r := by
  intro hn
  apply ensures_map
  apply Ensures.imp h
  rintro v r' ⟨hDerives, hv, hSource⟩
  refine ⟨hDerives, ?_⟩
  rintro t ht
  obtain rfl : v = t := by simpa using ht
  exact ⟨Nat.le_trans hn (hSource.resolve_right List.not_mem_nil), hv⟩

theorem renews_through {f : ValueId → Recording ValueId} (ha : IsNew n ta r)
    (hMakes : ∀ t < r.graph.size, Makes [] (f t) r) : Renews n (through ta f) r := by
  cases ta with
  | none => exact renews_none
  | some t => exact renews_some (hMakes t (ha t rfl).2)

theorem renews_add (ha : IsNew n ta r) (hb : IsNew n tb r) : Renews n (add ta tb) r := by
  cases ta with
  | none =>
    cases tb with
    | none => exact renews_none
    | some u => exact renews_pure hb
  | some t =>
    cases tb with
    | none => exact renews_pure ha
    | some u => exact renews_some (makes_arith .add (ha t rfl).2 (hb u rfl).2)

theorem renews_sub (ha : IsNew n ta r) (hb : IsNew n tb r) : Renews n (sub ta tb) r := by
  cases tb with
  | none =>
    cases ta with
    | none => exact renews_none
    | some t => exact renews_pure ha
  | some u =>
    cases ta with
    | none => exact renews_some (makes_neg (hb u rfl).2)
    | some t => exact renews_some (makes_arith .sub (ha t rfl).2 (hb u rfl).2)

theorem renews_accumulate (ha : IsNew n ta r) (hb : IsNew n tb r) :
    Renews n (accumulate ta tb) r := by
  cases ta with
  | none =>
    cases tb with
    | none => exact renews_none
    | some u => exact renews_pure hb
  | some t =>
    cases tb with
    | none => exact renews_pure ha
    | some u => exact renews_some (makes_elementwise (ha t rfl).2 (hb u rfl).2 (by simp))

theorem makes_callTangent (f : NamedFunction) {t : ValueId} (ha : a < r.graph.size)
    (hOut : out < r.graph.size) (ht : t < r.graph.size) : Makes [] (callTangent f a out t) r := by
  cases f with
  | relu =>
    apply (makes_positive ha).bind
    intro slope r₁ hDerives hSlope
    exact (makes_arith .mul hSlope (hDerives.lt ht)).of_new
  -- These slopes need no value but the operand and the result.
  | exp => exact makes_arith .mul hOut ht
  | log => exact makes_arith .div ht ha
  | sin =>
    apply (makes_call .cos ha).bind
    intro slope r₁ hDerives hSlope
    exact (makes_arith .mul hSlope (hDerives.lt ht)).of_new
  | cos =>
    apply (makes_call .sin ha).bind
    intro slope r₁ hDerives hSlope
    apply Makes.bind (makes_arith .mul hSlope (hDerives.lt ht)).of_new
    intro product r₂ _ hProduct
    exact (makes_neg hProduct).of_new
  | tanh =>
    apply (makes_arithRight .pow hOut 2).bind
    intro square r₁ hDerives₁ hSquare
    apply Makes.bind (makes_arithLeft .sub 1 hSquare).of_new
    intro slope r₂ hDerives₂ hSlope
    exact (makes_arith .mul hSlope (hDerives₂.lt (hDerives₁.lt ht))).of_new
  | sqrt =>
    apply (makes_arithLeft .mul 2 hOut).bind
    intro double r₁ hDerives hDouble
    exact (makes_arith .div (hDerives.lt ht) hDouble).of_new

theorem renews_arithTangent (op : Arith) (ha : a < r.graph.size) (hb : b < r.graph.size)
    (hOut : out < r.graph.size) (hta : IsNew n ta r) (htb : IsNew n tb r) :
    Renews n (arithTangent op a b out ta tb) r := by
  cases op with
  | add => exact renews_add hta htb
  | sub => exact renews_sub hta htb
  | mul =>
    apply (renews_through hta fun t ht => makes_arith .mul ht hb).bind
    intro l r₁ hDerives₁ hl
    apply (renews_through (htb.extend hDerives₁) fun t ht =>
      makes_arith .mul (hDerives₁.lt ha) ht).bind
    intro u r₂ hDerives₂ hu
    exact renews_add (hl.extend hDerives₂) hu
  | div =>
    apply (renews_through hta fun t ht => makes_arith .div ht hb).bind
    intro l r₁ hDerives₁ hl
    apply Renews.bind (renews_through (htb.extend hDerives₁) ?_)
    · intro u r₂ hDerives₂ hu
      exact renews_sub (hl.extend hDerives₂) hu
    · intro t ht
      apply (makes_arith .mul (hDerives₁.lt ha) ht).bind
      intro product r₂ hDerives₂ hProduct
      apply Makes.bind (makes_arithRight .pow (hDerives₂.lt (hDerives₁.lt hb)) 2).of_new
      intro square r₃ hDerives₃ hSquare
      exact (makes_arith .div (hDerives₃.lt hProduct) hSquare).of_new
  -- Here both parts record a factor of their own before they multiply.
  | pow =>
    apply Renews.bind (renews_through hta ?_)
    · intro l r₁ hDerives₁ hl
      apply Renews.bind (renews_through (htb.extend hDerives₁) ?_)
      · intro u r₂ hDerives₂ hu
        exact renews_add (hl.extend hDerives₂) hu
      · intro t ht
        apply (makes_call .log (hDerives₁.lt ha)).bind
        intro log r₂ hDerives₂ hLog
        apply Makes.bind (makes_arith .mul (hDerives₂.lt (hDerives₁.lt hOut)) hLog).of_new
        intro slope r₃ hDerives₃ hSlope
        exact (makes_arith .mul hSlope (hDerives₃.lt (hDerives₂.lt ht))).of_new
    · intro t ht
      apply (makes_powerSlope ha hb).bind
      intro slope r₁ hDerives hSlope
      exact (makes_arith .mul hSlope (hDerives.lt ht)).of_new

/-- **The tangent of an operation is a new value**, as the tangents of its operands are. -/
theorem leaves_tangentOf {op : Operation} {operands : List ValueId} {shape : Shape}
    {tangents : Derivatives} (hn : n ≤ r.graph.size)
    (hOperands : ∀ k, operands.getD k 0 < r.graph.size) (hOut : out < r.graph.size)
    (hTangents : ∀ v, IsNew n (tangents v) r) :
    Leaves (tangentOf op operands out shape tangents) r fun t r' =>
      r.Derives r' ∧ IsNew n t r' := by
  have ha := hOperands 0
  have hb := hOperands 1
  have hta := hTangents (operands.getD 0 0)
  have htb := hTangents (operands.getD 1 0)
  have hLift : ∀ {m : Recording (Option ValueId)}, Renews n m r →
      Leaves (liftM m : Differentiating _) r fun t r' => r.Derives r' ∧ IsNew n t r' :=
    fun h => leaves_lift (h hn)
  unfold tangentOf
  simp only
  split
  · exact hLift renews_none
  · cases op with
    | arith op => exact hLift (renews_arithTangent op ha hb hOut hta htb)
    | accumulate => exact hLift (renews_accumulate hta htb)
    | neg => exact hLift (renews_through hta fun t ht => makes_neg ht)
    | call f => exact hLift (renews_through hta fun t ht => makes_callTangent f ha hOut ht)
    | indicator c => exact hLift renews_none
    -- A product of arrays: the second tangent is made where the first one has been added.
    | contract axes =>
      refine Leaves.bind (hLift (renews_through hta fun t ht => makes_contract axes ht hb)) ?_
      rintro l r₁ ⟨hDerives₁, hl⟩
      have hn₁ := Nat.le_trans hn hDerives₁.graph.size_le
      refine Leaves.bind (leaves_lift (renews_through (htb.extend hDerives₁)
        (fun t ht => makes_contract axes (hDerives₁.lt ha) ht) hn₁)) ?_
      rintro u r₂ ⟨hDerives₂, hu⟩
      apply leaves_lift
      apply (renews_add (hl.extend hDerives₂) hu
        (Nat.le_trans hn₁ hDerives₂.graph.size_le)).imp
      rintro t r₃ ⟨hDerives₃, ht⟩
      exact ⟨(hDerives₁.trans_plain hDerives₂).trans_plain hDerives₃, ht⟩
    | reduceSum axes => exact hLift (renews_through hta fun t ht => makes_sum ht axes)
    | broadcast dims =>
      exact hLift (renews_through hta fun t ht =>
        makes_pushShaped (by simp) (by simpa using ht) (by simp))
    | transpose permutation =>
      exact hLift (renews_through hta fun t ht => makes_transpose ht permutation)
    | reshape => exact hLift (renews_through hta fun t ht => makes_reshape ht shape)
    | cast dtype => exact hLift (renews_through hta fun t ht => makes_cast ht dtype)
    | foreign name => exact leaves_throw _

/-! ## The way through the graph -/

/-- All tangents are new. -/
def AllNew (n : Nat) (d : Derivatives) (r : Recorder) : Prop := ∀ v, IsNew n (d v) r

theorem AllNew.set {d : Derivatives} {v t : ValueId} (h : AllNew n d r) (ht : IsNew n (some t) r) :
    AllNew n (d.set v t) r := by
  intro w
  unfold Derivatives.set
  split
  · exact ht
  · exact h w

theorem AllNew.extend {d : Derivatives} {r' : Recorder} {seeds : List ValueId}
    {tagged : List DerivativeTag} (h : AllNew n d r) (hDerives : r.Derives r' seeds tagged) :
    AllNew n d r' :=
  fun v t ht => ⟨(h v t ht).1, hDerives.lt (h v t ht).2⟩

/-- The chosen arguments get a seed each. -/
theorem ensures_seeds (hn : n ≤ r.graph.size) {wrt : List ValueId}
    (hLt : ∀ a ∈ wrt, a < r.graph.size) :
    Ensures (seedTangents wrt) r fun d r' => ∃ seeds, seeds.length = wrt.length ∧
      r.Derives r' seeds (tagsOf .tangent wrt seeds) ∧ AllNew n d r' := by
  unfold seedTangents
  apply Ensures.foldlM fun before d r' => ∃ seeds, seeds.length = before.length ∧
    r.Derives r' seeds (tagsOf .tangent before seeds) ∧ AllNew n d r'
  · exact ⟨[], rfl, Recorder.Derives.refl r, fun _ _ ht => absurd ht (by simp [Derivatives.none])⟩
  · rintro before a after d r₁ hSplit ⟨seeds, hLength, hDerives, hAll⟩
    have ha : a < r₁.graph.size := hDerives.lt (hLt a (by simp [hSplit]))
    apply Ensures.bind (derives_derivativeInput .tangent ha)
    rintro s r₂ ⟨hSeed, hNew, hLeaf⟩
    refine ⟨seeds ++ [s], by simp [hLength], ?_, (hAll.extend hSeed).set ?_⟩
    · rw [tagsOf_append hLength.symm]
      exact hDerives.trans hSeed
    · rintro t ht
      obtain rfl : s = t := by simpa using ht
      exact ⟨Nat.le_trans (Nat.le_trans hn hDerives.graph.size_le) hNew,
        Graph.lt_size_of_isLeaf hLeaf⟩

/-- The tags of the way through the graph: tangents that are new. -/
def TagsNew (n : Nat) (tagged : List DerivativeTag) : Prop :=
  ∀ t ∈ tagged, t.kind = .tangent ∧ n ≤ t.value

theorem TagsNew.append {tagged tagged' : List DerivativeTag} (h : TagsNew n tagged)
    (h' : TagsNew n tagged') : TagsNew n (tagged ++ tagged') := by
  intro t ht
  rcases List.mem_append.mp ht with ht | ht
  · exact h t ht
  · exact h' t ht

theorem leaves_carryTangent {g : Graph} (hg : g.WellFormed) (hGraph : g.Extends r.graph)
    {d : Derivatives} (hAll : AllNew g.size d r) (v : ValueId) :
    Leaves (carryTangent g d v) r fun d' r' => ∃ tagged,
      r.Derives r' [] tagged ∧ AllNew g.size d' r' ∧ TagsNew g.size tagged := by
  have hNothing : TagsNew g.size [] := fun t ht => absurd ht List.not_mem_nil
  unfold carryTangent
  cases hOp : g.op? v with
  | none => exact leaves_pure ⟨[], Recorder.Derives.refl r, hAll, hNothing⟩
  | some made =>
    obtain ⟨op, operands⟩ := made
    have hGet := Graph.op?_eq_some hOp
    have hv : v < g.size := Graph.lt_size_of_get? hGet
    have hSize := hGraph.size_le
    have hOperands : ∀ k, operands.getD k 0 < r.graph.size := by
      refine getD_lt_of_forall_lt (Nat.lt_of_le_of_lt (Nat.zero_le v)
        (Nat.lt_of_lt_of_le hv hSize)) ?_
      intro w hw
      exact Nat.lt_trans (hg.before hGet w hw) (Nat.lt_of_lt_of_le hv hSize)
    refine Leaves.bind (leaves_tangentOf hSize hOperands (Nat.lt_of_lt_of_le hv hSize) hAll) ?_
    rintro t r₁ ⟨hDerives, ht⟩
    cases t with
    | none => exact leaves_pure ⟨[], hDerives, hAll.extend hDerives, hNothing⟩
    | some t =>
      obtain ⟨hNew, hLt⟩ := ht t rfl
      refine Leaves.bind (leaves_lift (derives_tag .tangent
        (hDerives.lt (Nat.lt_of_lt_of_le hv hSize)) hLt)) ?_
      rintro ⟨⟩ r₂ hTag
      -- The tag of this value is the only one of this step.
      refine leaves_pure ⟨[⟨.tangent, v, t⟩], hDerives.trans hTag, ?_, ?_⟩
      · apply ((hAll.extend hDerives).extend hTag).set
        rintro u hu
        obtain rfl : t = u := by simpa using hu
        exact ⟨hNew, hTag.lt hLt⟩
      · intro tag hMem
        obtain rfl := List.mem_singleton.mp hMem
        exact ⟨rfl, hNew⟩

/-- The tangents of the outputs are new and tagged. -/
theorem ensures_newOutputs (hn : n ≤ r.graph.size) {d : Derivatives} (hAll : AllNew n d r)
    {outputs : List ValueId} (hLt : ∀ o ∈ outputs, o < r.graph.size) :
    Ensures (outputTangents d outputs) r fun ws r' => ws.length = outputs.length ∧
      r.Derives r' [] (tagsOf .tangent outputs ws) ∧ ∀ w ∈ ws, n ≤ w := by
  apply derives_each
  intro o ho r₁ tagged hDerives
  have hSize := Nat.le_trans hn hDerives.graph.size_le
  apply derives_known .tangent (fun w hw => Nat.le_trans hSize hw) (hDerives.lt (hLt o ho))
  intro w hw
  obtain ⟨hNew, hwLt⟩ := hAll.extend hDerives o w hw
  exact ⟨hwLt, hNew⟩

end Forward

/-! ## The derived trace -/

/-- What a forward differentiation makes of a trace: there is a seed for each chosen argument,
the values on the way to the outputs have tangents, and the outputs do. -/
structure Trace.DerivesForward (t d : Trace) (wrt seeds tangents : List ValueId)
    (carried : List DerivativeTag) : Prop where
  recorder : t.recorder.Derives d.recorder seeds
    (tagsOf .tangent wrt seeds ++ (carried ++ tagsOf .tangent t.outputs tangents))
  name : d.name = t.name
  seeds_length : seeds.length = wrt.length
  carried_new : Forward.TagsNew t.graph.size carried
  outputs : d.outputs = t.outputs ++ tangents
  tangents_length : tangents.length = t.outputs.length
  tangents_new : ∀ w ∈ tangents, t.graph.size ≤ w

/-- **A forward differentiation adds to a trace** its seeds and the tangents. -/
theorem Trace.derivesForward {t d : Trace} (h : t.WellFormed) {positions wrt : List Nat}
    (hSelect : selectArguments t positions = .ok wrt)
    (hDerivative : t.differentiate .jvp positions = .ok d) :
    ∃ seeds tangents carried, t.DerivesForward d wrt seeds tangents carried := by
  rw [differentiate_jvp hSelect] at hDerivative
  obtain ⟨r, hRun, hEq⟩ := recorder_of_extend h hDerivative
  have hSelects := selects_of_selectArguments h hSelect
  have hWrt : ∀ a ∈ wrt, a < t.recorder.graph.size := fun a ha =>
    Graph.lt_size_of_get? (hSelects.leaf h ha)
  have hLeaves : Leaves (recordForward t.graph wrt t.outputs) t.recorder fun outputs r' =>
      ∃ seeds tangents carried, seeds.length = wrt.length ∧
        t.recorder.Derives r' seeds
          (tagsOf .tangent wrt seeds ++ (carried ++ tagsOf .tangent t.outputs tangents)) ∧
        Forward.TagsNew t.graph.size carried ∧ outputs = t.outputs ++ tangents ∧
        tangents.length = t.outputs.length ∧ ∀ w ∈ tangents, t.graph.size ≤ w := by
    -- Seeds first, then the values in their order, then the outputs.
    refine Leaves.bind (leaves_lift (Forward.ensures_seeds (Nat.le_refl t.graph.size) hWrt)) ?_
    rintro d₀ r₁ ⟨seeds, hLength, hSeeds, hAll⟩
    have hLoop : Leaves (t.graph.ids.foldlM (carryTangent t.graph) d₀) r₁ fun d₁ r₂ =>
        ∃ carried, r₁.Derives r₂ [] carried ∧ Forward.AllNew t.graph.size d₁ r₂ ∧
          Forward.TagsNew t.graph.size carried := by
      refine Leaves.foldlM ⟨[], Recorder.Derives.refl r₁, hAll,
        fun t ht => absurd ht List.not_mem_nil⟩ ?_
      rintro v - d₁ r₂ ⟨carried, hDerives, hAll₁, hTags⟩
      refine Leaves.imp (Forward.leaves_carryTangent h.graph
        (hSeeds.graph.trans hDerives.graph) hAll₁ v) ?_
      rintro d₂ r₃ ⟨tagged, hStep, hAll₂, hNew⟩
      exact ⟨carried ++ tagged, hDerives.trans hStep, hAll₂, hTags.append hNew⟩
    refine hLoop.bind ?_
    rintro d₁ r₂ ⟨carried, hCarried, hAll₁, hTags⟩
    have hGraph := hSeeds.graph.trans hCarried.graph
    refine Leaves.bind (leaves_lift (Forward.ensures_newOutputs hGraph.size_le hAll₁ fun o ho =>
      Nat.lt_of_lt_of_le (h.output_lt o ho) hGraph.size_le)) ?_
    rintro tangents r₃ ⟨hTangents, hOutputs, hNew⟩
    refine leaves_pure ⟨seeds, tangents, carried, hLength, ?_, hTags, rfl, hTangents, hNew⟩
    have hAllAdded := hSeeds.trans (hCarried.trans hOutputs)
    rwa [List.append_nil, List.append_nil] at hAllAdded
  obtain ⟨seeds, tangents, carried, hLength, hDerives, hTags, hOutputs, hTangents, hNew⟩ :=
    hLeaves d.outputs r hRun
  rw [hEq] at hOutputs ⊢
  exact ⟨seeds, tangents, carried, { hDerives with }, rfl, hLength, hTags, hOutputs, hTangents,
    hNew⟩

end ArrayEquations
