import ArrayEquations.Proofs.PrimalEquations

/-!
# ArrayEquations — derivative outputs are labelled with what they are

The label of an output is not kept beside the output; it is read off the last tag of its value.
Differentiation tags every output that it makes, a cotangent with its argument and a tangent with
its primal. So the label is right as long as no later tag gives the value another role.

One may: a seed that a sum hands on to both of its operands is the cotangent of both. All outputs
with that value are then labelled alike, with the role that was tagged last.

## Main definitions

* `Trace.IsLastRole` — no later tag is about the value of a tag.
* `Trace.resultSymbol` — what an output of a function is called.

## Main results

* `Trace.lastTagOf?_of_isLastRole` — a role that no other one follows is read off the value.
* `Trace.cotangent_label`, `Trace.tangent_label` — the labels of both kinds of derivative.
* `Trace.derivative_labels` — the labels of all outputs of a derivative.
* `Derived.labels_of_sum` — a value with two roles.
-/

namespace ArrayEquations

/-! ## The last role of a value -/

namespace Trace

/-- No tag behind the one given is about the same value. -/
def IsLastRole (t : Trace) (tag : DerivativeTag) : Prop :=
  t.tags.Pairwise fun earlier later => earlier = tag → later.value ≠ tag.value

instance (t : Trace) (tag : DerivativeTag) : Decidable (t.IsLastRole tag) :=
  inferInstanceAs (Decidable (List.Pairwise _ t.tags))

/-- A role that no other one follows is the one that is read off the value. -/
theorem lastTagOf?_of_isLastRole {t : Trace} {tag : DerivativeTag} (hMem : tag ∈ t.tags)
    (hLast : t.IsLastRole tag) : t.lastTagOf? tag.value = some tag := by
  obtain ⟨before, after, hSplit⟩ := List.append_of_mem hMem
  rw [IsLastRole, hSplit] at hLast
  obtain ⟨-, hBehind, -⟩ := List.pairwise_append.mp hLast
  have hAfter : after.reverse.find? (·.value == tag.value) = none := by
    rw [List.find?_eq_none]
    intro other hOther
    simpa using (List.pairwise_cons.mp hBehind).1 other (List.mem_reverse.mp hOther) rfl
  -- The tags are searched from the last one on.
  rw [lastTagOf?, hSplit, List.reverse_append, List.reverse_cons, List.append_assoc,
    List.find?_append, hAfter, Option.none_or, List.singleton_append]
  exact List.find?_cons_of_pos (beq_self_eq_true _)

end Trace

/-! ## Labels -/

namespace Threading

variable {t : Threading} {trace : Trace} {names : NameTable} {primal value : ValueId} {s : Symbol}

theorem outputSymbol_of_cotangent
    (hTag : trace.lastTagOf? value = some ⟨.cotangent, primal, value⟩)
    (hSymbol : names.symbol? primal = some s) :
    t.outputSymbol trace names value = s.prefixed t.cotangentPrefix := by
  simp only [outputSymbol, hTag, primalSymbol?, hSymbol, Option.some_or, Option.getD_some, prefixOf]

theorem outputSymbol_of_tangent
    (hTag : trace.lastTagOf? value = some ⟨.tangent, primal, value⟩)
    (hSymbol : t.functionSymbol? primal = some s) :
    t.outputSymbol trace names value = s.prefixed t.tangentPrefix := by
  simp only [outputSymbol, hTag, hSymbol, Option.some_or, Option.getD_some, prefixOf]

end Threading

namespace Trace

variable {t d : Trace} {options : Options}

/-- The symbol of an output of a function: that of the function, numbered by first appearance if
the function has several outputs. -/
def resultSymbol (t : Trace) (options : Options) (o : ValueId) : Symbol :=
  let function := options.functionName.getD t.name
  if t.outputs.eraseDups.length = 1 then .plain function
  else .plain (function ++ "^\x7b(" ++ toString (t.outputs.eraseDups.idxOf o + 1) ++ ")\x7d")

/-- In a forward derivative the outputs of the function are called what the function calls
them. -/
theorem functionSymbol?_of_forward (ht : t.WellFormed) {wrt seeds tangents : List ValueId}
    {carried : List DerivativeTag} (h : t.DerivesForward d wrt seeds tangents carried)
    (hTags : t.tags = []) {o : ValueId} (ho : o ∈ t.outputs) :
    (d.roles options).functionSymbol? o = some (t.resultSymbol options o) := by
  have hFunction : (d.roles options).function = .plain (options.functionName.getD t.name) := by
    rw [← h.name]
    exact function_resolveNames _ _ _
  have hPrimals : (d.roles options).functionPrimals = t.outputs.eraseDups :=
    (h.functionPrimals_eq ht hTags).trans (functionPrimals_of_tags_eq_nil hTags)
  rw [Threading.functionSymbol?, hPrimals, hFunction, idxOf?_of_mem (List.mem_eraseDups.mpr ho)]
  simp only [resultSymbol]
  split
  · rfl
  · rfl

variable {program : Program} {k : Nat} {o w : ValueId} {e : Equation}

/-- The equation of an output has the label that the tags of its value give. -/
private theorem label_eq
    (hProgram : buildProgram d (d.threaded options).1 (d.threaded options).2 options = .ok program)
    (ho : d.outputs[k]? = some o) (he : program.outputs[k]? = some e) :
    e.lhs.symbol = (d.threaded options).2.outputSymbol d (d.threaded options).1 o := by
  have hLabels := congrArg (·[k]?) (outputs_buildProgram hProgram)
  simp only [List.getElem?_map, ho, he, Option.map_some] at hLabels
  exact Option.some.inj hLabels

/-- Of two rows of values the pair at a position is tagged. -/
private theorem mem_tagsOf_getElem? {kind : DerivativeKind} {primals values : List ValueId}
    {primal value : ValueId} (hPrimal : primals[k]? = some primal)
    (hValue : values[k]? = some value) : ⟨kind, primal, value⟩ ∈ tagsOf kind primals values :=
  mem_tagsOf.mpr
    ⟨rfl, List.mem_of_getElem? (List.getElem?_zip_eq_some.mpr ⟨hPrimal, hValue⟩)⟩

/-- **A cotangent is labelled with its argument**, provided that its value gets no later role. In
the program of a reverse differentiation or a gradient, the equation of output `k` then has the
symbol of the `k`-th chosen argument behind the prefix of cotangents. -/
theorem cotangent_label {wrt seeds starts : List ValueId} {carried : List DerivativeTag}
    (h : t.DerivesBackward d wrt seeds starts carried) (hTags : t.tags = [])
    (hProgram : buildProgram d (d.threaded options).1 (d.threaded options).2 options = .ok program)
    {a : ValueId} (ha : wrt[k]? = some a) (ho : d.outputs[k]? = some o)
    (he : program.outputs[k]? = some e) :
    ⟨.cotangent, a, o⟩ ∈ d.tags ∧ ∀ s, (d.threaded options).1.symbol? a = some s →
      d.IsLastRole ⟨.cotangent, a, o⟩ → e.lhs.symbol = s.prefixed options.cotangentPrefix := by
  have hTag : ⟨.cotangent, a, o⟩ ∈ d.tags := (h.recorder.mem_tags hTags).mpr
    (List.mem_append_right _ (List.mem_append_right _ (mem_tagsOf_getElem? ha ho)))
  refine ⟨hTag, ?_⟩
  intro s hSymbol hLast
  rw [label_eq hProgram ho he]
  exact Threading.outputSymbol_of_cotangent (lastTagOf?_of_isLastRole hTag hLast) hSymbol

/-- **A tangent is labelled with its output**, provided that its value gets no later role. In the
program of a forward differentiation, the equations of the function's outputs come first; the
equation of the `k`-th tangent then has the symbol of the `k`-th output behind the prefix of
tangents. -/
theorem tangent_label (ht : t.WellFormed) {wrt seeds tangents : List ValueId}
    {carried : List DerivativeTag} (h : t.DerivesForward d wrt seeds tangents carried)
    (hTags : t.tags = [])
    (hProgram : buildProgram d (d.threaded options).1 (d.threaded options).2 options = .ok program)
    (ho : t.outputs[k]? = some o) (hw : d.outputs[t.outputs.length + k]? = some w)
    (he : program.outputs[t.outputs.length + k]? = some e) :
    ⟨.tangent, o, w⟩ ∈ d.tags ∧ (d.IsLastRole ⟨.tangent, o, w⟩ →
      e.lhs.symbol = (t.resultSymbol options o).prefixed options.tangentPrefix) := by
  have hTangent : tangents[k]? = some w := by
    rw [h.outputs, List.getElem?_append_right (Nat.le_add_right _ _), Nat.add_sub_cancel_left] at hw
    exact hw
  have hTag : ⟨.tangent, o, w⟩ ∈ d.tags := (h.recorder.mem_tags hTags).mpr
    (List.mem_append_right _ (List.mem_append_right _ (mem_tagsOf_getElem? ho hTangent)))
  refine ⟨hTag, ?_⟩
  intro hLast
  rw [label_eq hProgram hw he]
  exact Threading.outputSymbol_of_tangent (lastTagOf?_of_isLastRole hTag hLast)
    (functionSymbol?_of_forward ht h hTags (List.mem_of_getElem? ho))

/-- Every argument of a derivative has a symbol, among them those that were chosen. -/
private theorem exists_symbol_of_selected {wrt : List ValueId} (hSelects : t.Selects wrt)
    {seeds : List ValueId} (hArguments : d.arguments = t.arguments ++ seedArguments seeds)
    {a : ValueId} (ha : a ∈ wrt) : ∃ s, (d.threaded options).1.symbol? a = some s := by
  obtain ⟨argument, hMem, rfl⟩ := List.mem_map.mp (hSelects.argument a ha)
  have hArgument : argument ∈ d.arguments := hArguments ▸ List.mem_append_left _ hMem
  exact NameTable.hasSymbol_iff.mp (hasSymbol_nameLeftovers hArgument)

/-- **Derivative outputs are labelled with what they are, unless their values have later roles.**
Take a recorded trace without tags, and the program of a derivative of it. It has one equation for
each output. A reverse derivative has an output for each chosen argument. It is tagged as the
cotangent of the argument, and if no later tag is about the same value, its label is the symbol of
the argument behind the prefix of cotangents. A forward derivative has the outputs of the function
and a tangent for each of them. It is tagged as the tangent of the output, and if no later tag is
about the same value, its label is what the function calls the output, behind the prefix of
tangents. -/
theorem derivative_labels (ht : t.IsRecorded) (hTags : t.tags = []) {mode : Mode}
    {positions : List Nat} (hDerivative : t.differentiate mode positions = .ok d)
    {names : NameTable} (hNames : (d.run options .build).state.names = some names)
    (hProgram : (d.run options .build).state.program = some program) :
    ∃ wrt, selectArguments t positions = .ok wrt ∧
      program.outputs.length = d.outputs.length ∧
      (mode ≠ .jvp → d.outputs.length = wrt.length ∧
        ∀ (k : Nat) (a o : ValueId) (e : Equation), wrt[k]? = some a → d.outputs[k]? = some o →
          program.outputs[k]? = some e →
          ⟨.cotangent, a, o⟩ ∈ d.tags ∧ ∃ s, names.symbol? a = some s ∧
            (d.IsLastRole ⟨.cotangent, a, o⟩ →
              e.lhs.symbol = s.prefixed options.cotangentPrefix)) ∧
      (mode = .jvp → d.outputs.length = t.outputs.length + t.outputs.length ∧
        ∀ (k : Nat) (o w : ValueId) (e : Equation), t.outputs[k]? = some o →
          d.outputs[t.outputs.length + k]? = some w →
          program.outputs[t.outputs.length + k]? = some e →
          ⟨.tangent, o, w⟩ ∈ d.tags ∧
            (d.IsLastRole ⟨.tangent, o, w⟩ →
              e.lhs.symbol = (t.resultSymbol options o).prefixed options.tangentPrefix)) := by
  have hWellFormed := ht.importable.wellFormed
  obtain ⟨wrt, hSelect⟩ := exists_selectArguments_of_differentiate hDerivative
  have hBuilt := program_run hProgram
  obtain rfl := Option.some.inj ((names_run d options).symm.trans hNames)
  have hLength : program.outputs.length = d.outputs.length := by
    simpa using congrArg List.length (outputs_buildProgram hBuilt)
  refine ⟨wrt, hSelect, hLength, ?_, ?_⟩
  · -- cotangents of the chosen arguments
    intro hMode
    obtain ⟨seeds, starts, carried, h⟩ :=
      derivesBackward hWellFormed hMode hSelect hDerivative
    refine ⟨h.outputs_length, ?_⟩
    intro k a o e ha ho he
    obtain ⟨s, hSymbol⟩ : ∃ s, (d.threaded options).1.symbol? a = some s :=
      exists_symbol_of_selected (selects_of_selectArguments hWellFormed hSelect)
        h.recorder.arguments (List.mem_of_getElem? ha)
    obtain ⟨hTag, hLabel⟩ := cotangent_label h hTags hBuilt ha ho he
    exact ⟨hTag, s, hSymbol, hLabel s hSymbol⟩
  · -- tangents of the outputs
    rintro rfl
    obtain ⟨seeds, tangents, carried, h⟩ := derivesForward hWellFormed hSelect hDerivative
    refine ⟨by rw [h.outputs, List.length_append, h.tangents_length], ?_⟩
    intro k o w e ho hw he
    exact tangent_label hWellFormed h hTags hBuilt ho hw he

/-- The trace of the product of two numbers and of its sine. -/
def productAndSine : Trace where
  name := "f"
  graph := ⟨#[⟨.leaf, []⟩, ⟨.leaf, []⟩, ⟨.op (.arith .mul) [0, 1], []⟩,
    ⟨.op (.call .sin) [2], []⟩]⟩
  arguments := [⟨0, some "x", false⟩, ⟨1, some "y", false⟩]
  bindings := []
  tags := []
  outputs := [2, 3]

/-- Its tangents with respect to the first number. -/
def productAndSineTangents : Trace :=
  { productAndSine with
    graph := (((productAndSine.graph.push ⟨.leaf, []⟩).push ⟨.op (.arith .mul) [4, 1], []⟩).push
      ⟨.op (.call .cos) [2], []⟩).push ⟨.op (.arith .mul) [6, 5], []⟩
    arguments := productAndSine.arguments ++ [⟨4, none, true⟩]
    tags := [⟨.tangent, 0, 4⟩, ⟨.tangent, 2, 5⟩, ⟨.tangent, 3, 7⟩]
    outputs := [2, 3, 5, 7] }

/-- The tangents of two outputs are told apart, and a cotangent that is a value of the function is
labelled with its argument. -/
theorem derivative_labels_productAndSine :
    ∃ tangents gradient : Program, ∃ e₁ e₂ e₃,
      (productAndSineTangents.run {} .build).state.program = some tangents ∧
      (sineProductGradient.run {} .build).state.program = some gradient ∧
      tangents.outputs[2]? = some e₁ ∧ e₁.lhs.symbol = .plain "df^\x7b(1)\x7d" ∧
      tangents.outputs[3]? = some e₂ ∧ e₂.lhs.symbol = .plain "df^\x7b(2)\x7d" ∧
      gradient.outputs[0]? = some e₃ ∧ e₃.lhs.symbol = .plain "\\delta y" := by
  have hRecorded : productAndSine.IsRecorded := by
    exact ⟨[.argument [] (some "x"), .argument [] (some "y"), .arith .mul 0 1, .call .sin 2],
      ⟨productAndSine.graph, productAndSine.arguments, [], [], none⟩, "f", [2, 3], by decide,
      by decide⟩
  have hTangents : productAndSine.differentiate .jvp [0] = .ok productAndSineTangents := by decide
  have hRecorded' : sineProduct.IsRecorded := by
    exact ⟨sineProductCalls, ⟨sineProduct.graph, sineProduct.arguments, sineProduct.bindings, [],
      none⟩, "f", [3], by decide, by decide⟩
  have hGradient : sineProduct.differentiate .grad [1] = .ok sineProductGradient := by
    with_unfolding_all rfl
  -- Both programs are built; the theorem then tells their labels from the tags.
  obtain ⟨tangents, hProgram⟩ := Option.isSome_iff_exists.mp
    (show (productAndSineTangents.run {} .build).state.program.isSome = true by decide +kernel)
  obtain ⟨gradient, hProgram'⟩ := Option.isSome_iff_exists.mp
    (show (sineProductGradient.run {} .build).state.program.isSome = true by decide +kernel)
  obtain ⟨wrt, -, hLength, -, hForward⟩ :=
    derivative_labels hRecorded rfl hTangents (names_run _ _) hProgram
  obtain ⟨wrt', hSelect, hLength', hBackward, -⟩ :=
    derivative_labels hRecorded' rfl hGradient (names_run _ _) hProgram'
  obtain rfl : wrt' = [1] := Except.ok.inj (hSelect.symm.trans (by decide))
  have hTwo : 2 < tangents.outputs.length := by rw [hLength]; decide
  have hThree : 3 < tangents.outputs.length := by rw [hLength]; decide
  have hZero : 0 < gradient.outputs.length := by rw [hLength']; decide
  obtain ⟨-, hFirst⟩ := (hForward rfl).2 0 2 5 _ rfl rfl (List.getElem?_eq_getElem hTwo)
  obtain ⟨-, hSecond⟩ := (hForward rfl).2 1 3 7 _ rfl rfl (List.getElem?_eq_getElem hThree)
  obtain ⟨-, s, hSymbol, hThird⟩ :=
    (hBackward (by decide)).2 0 1 2 _ rfl rfl (List.getElem?_eq_getElem hZero)
  obtain rfl : s = .plain "y" := Option.some.inj (hSymbol.symm.trans (by decide +kernel))
  exact ⟨tangents, gradient, _, _, _, hProgram, hProgram', List.getElem?_eq_getElem hTwo,
    (hFirst (by decide)).trans (by decide +kernel), List.getElem?_eq_getElem hThree,
    (hSecond (by decide)).trans (by decide +kernel), List.getElem?_eq_getElem hZero,
    hThird (by decide)⟩

end Trace

/-! ## A value with two roles -/

/-- The function with one output on two arguments. -/
def binaryFunction (op : Arith) : TracedFunction where
  name := "f"
  argumentNames := some ["x", "y"]
  body arguments := do
    let z ← Recording.arith op (arguments.getD 0 0) (arguments.getD 1 0)
    return [z]

/-- The labels of the outputs of a derivative on arguments of the shapes given. -/
def Derived.labels (d : Derived) (shapes : List Shape) : List String :=
  match d.transcribe shapes {} with
  | .ok transcript => transcript.program.outputs.map (·.lhs.symbol.name)
  | .error _ => []

/-- The two cotangents of a product differ, and each is labelled with its argument. -/
example : ((binaryFunction .mul).vjp [0, 1]).labels [[], []] = ["\\delta x", "\\delta y"] := by
  decide +kernel

/-- **The two cotangents of a sum are one value**, the seed, and both are labelled with the second
argument. -/
theorem Derived.labels_of_sum :
    ((binaryFunction .add).vjp [0, 1]).labels [[], []] = ["\\delta y", "\\delta y"] := by
  decide +kernel

end ArrayEquations
