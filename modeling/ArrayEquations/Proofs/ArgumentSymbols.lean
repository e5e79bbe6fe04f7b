import ArrayEquations.Proofs.DefinedSymbols
import ArrayEquations.Proofs.DerivedForward
import ArrayEquations.Proofs.SymbolsApart

/-!
# ArrayEquations — inputs without names

Inputs without a formal name get their symbols in three ways. Inputs of the function itself get
letters, by their positions among each other. Derivative inputs are named by the tag that they are
made with: a tangent after its primal, a cotangent after the function, with the position of the
output if there are several. Derivative inputs that no tag can name get letters as well, by their
positions among all inputs.

The symbols of the first two kinds differ: a letter may have primes behind it, but nothing else, and
the prefix of a tangent is a letter in front of another one. The outputs of a function are numbered
without repetitions, however. A value that is returned twice has two cotangents, and these have one
symbol.

## Main definitions

* `Trace.Anonymous` — no input has a formal name, and no value is bound.
* `Trace.InputSymbol` — the symbol of an input, by what the input is.
* `Trace.SameDerivative` — two inputs are for the same derivative of one value.
* `Trace.InnerTangent` — an input is for the tangent of a value that is no input.

## Main results

* `Trace.InputSymbol.symbol?` — inputs have these symbols in the end.
* `Trace.InputSymbol.unique` — these symbols differ, except for the same derivative of one value.
* `Trace.inputs_told_apart` — which inputs of a derivative have one symbol.
* `Trace.seeds_look_alike` — two that do.
-/

namespace ArrayEquations

open NameTable

/-! ## Names -/

/-- The letter of a placeholder. -/
private def letter (position : Nat) : Char := Char.ofNat ('a'.toNat + position % 26)

private theorem letter_spec : ∀ i : Fin 26, Char.ofNat ('a'.toNat + i) ≠ '\\' ∧
    Char.ofNat ('a'.toNat + i) ≠ '\'' ∧
    ∀ j : Fin 26, Char.ofNat ('a'.toNat + i) = Char.ofNat ('a'.toNat + j) → i = j := by
  decide +kernel

private theorem letter_ne (position : Nat) : letter position ≠ '\\' ∧ letter position ≠ '\'' := by
  obtain ⟨hSlash, hPrime, -⟩ := letter_spec ⟨position % 26, Nat.mod_lt _ (by decide)⟩
  exact ⟨hSlash, hPrime⟩

private theorem toList_placeholder (position : Nat) :
    (placeholder position).toList = letter position :: List.replicate (position / 26) '\'' :=
  String.toList_ofList

/-- Different positions have different placeholders. -/
theorem placeholder_injective : Function.Injective placeholder := by
  intro i j h
  have hChars := congrArg String.toList h
  rw [toList_placeholder, toList_placeholder, List.cons.injEq] at hChars
  obtain ⟨hLetter, hPrimes⟩ := hChars
  have hMod : i % 26 = j % 26 := by
    have hFin := (letter_spec ⟨i % 26, Nat.mod_lt _ (by decide)⟩).2.2
      ⟨j % 26, Nat.mod_lt _ (by decide)⟩ hLetter
    exact congrArg Fin.val hFin
  have hDiv : i / 26 = j / 26 := by simpa using congrArg List.length hPrimes
  omega

/-- A placeholder is no name of a tangent of an input. -/
theorem placeholder_ne_tangent (i j : Nat) : placeholder i ≠ "d" ++ placeholder j := by
  intro h
  have hChars := congrArg String.toList h
  rw [String.toList_append, toList_placeholder, toList_placeholder] at hChars
  obtain ⟨-, hRest⟩ := List.cons.inj hChars
  -- Behind the first letter of a placeholder there are only primes.
  have hMem : letter j ∈ List.replicate (i / 26) '\'' := by
    rw [hRest]
    exact List.mem_cons_self
  exact (letter_ne j).2 (List.eq_of_mem_replicate hMem)

theorem placeholder_ne_cotangent (i : Nat) (name : String) :
    placeholder i ≠ "\\delta " ++ name := by
  intro h
  have hChars := congrArg String.toList h
  rw [String.toList_append, toList_placeholder] at hChars
  exact (letter_ne i).1 (List.cons.inj hChars).1

theorem tangent_ne_cotangent (name name' : String) : "d" ++ name ≠ "\\delta " ++ name' := by
  intro h
  have hChars := congrArg String.toList h
  rw [String.toList_append, String.toList_append] at hChars
  exact absurd (List.cons.inj hChars).1 (by decide)

/-- The numbers of outputs differ. -/
private theorem eq_of_numbered {name : String} {i j : Nat}
    (h : name ++ "^\x7b(" ++ toString i ++ ")\x7d" = name ++ "^\x7b(" ++ toString j ++ ")\x7d") :
    i = j := by
  have hChars := congrArg String.toList h
  simp only [String.toList_append] at hChars
  have hDigits := List.append_cancel_left (List.append_cancel_right hChars)
  rw [Nat.toString_eq_ofList_toDigits, Nat.toString_eq_ofList_toDigits, String.toList_ofList,
    String.toList_ofList] at hDigits
  have hValues := congrArg (fun ds => Nat.ofDigitChars 10 ds 0) hDigits
  simpa using hValues

namespace Threading

variable {t : Threading} {p q : ValueId} {s s' : Symbol}

theorem functionSymbol?_isSome (h : p ∈ t.functionPrimals) : ∃ s, t.functionSymbol? p = some s := by
  unfold functionSymbol?
  cases hIndex : t.functionPrimals.idxOf? p with
  | none => exact absurd h (List.idxOf?_eq_none_iff.mp hIndex)
  | some position =>
    dsimp only
    split
    · exact ⟨_, rfl⟩
    · exact ⟨_, rfl⟩

/-- Different values have different symbols of the function. -/
theorem eq_of_functionSymbol? (h : t.functionSymbol? p = some s)
    (h' : t.functionSymbol? q = some s') (hName : s.name = s'.name) : p = q := by
  unfold functionSymbol? at h h'
  cases hp : t.functionPrimals.idxOf? p with
  | none => simp [hp] at h
  | some i =>
    cases hq : t.functionPrimals.idxOf? q with
    | none => simp [hq] at h'
    | some j =>
      rw [hp] at h
      rw [hq] at h'
      dsimp only at h h'
      obtain ⟨hi, hpi, -⟩ := List.idxOf?_eq_some_iff.mp hp
      obtain ⟨hj, hqj, -⟩ := List.idxOf?_eq_some_iff.mp hq
      suffices hSame : i = j by
        subst hSame
        exact hpi.symm.trans hqj
      -- One function alone is not numbered, and then both positions are zero.
      by_cases hOne : t.functionPrimals.length = 1
      · omega
      · rw [if_neg hOne, Option.some.injEq] at h h'
        subst h h'
        exact Nat.succ_injective (eq_of_numbered hName)

end Threading

namespace Trace

variable {t d : Trace} {a b : Argument} {s : Symbol} {v : ValueId}

/-! ## Inputs -/

/-- The inputs of the function itself. -/
def primalArguments (d : Trace) : List Argument := d.arguments.filter (!·.derivative)

/-- No input has a formal name and no value is bound. The inputs of the function itself are
different inputs of the graph, and derivative inputs are others. -/
structure Anonymous (d : Trace) : Prop where
  unnamed : ∀ a ∈ d.arguments, a.name = none
  unbound : d.bindings = []
  leaf : ∀ a ∈ d.arguments, d.graph.isLeaf a.value = true
  nodup : (d.primalArguments.map (·.value)).Nodup
  apart : ∀ a ∈ d.arguments, a.derivative = true → a.value ∉ d.primalArguments.map (·.value)

/-- The symbol of an input: a letter for an input of the function itself, a prefix and the symbol
of the function for a cotangent, a prefix and a letter for the tangent of an input. -/
inductive InputSymbol (d : Trace) (a : Argument) : Symbol → Prop
  | primal {position : Nat} (h : d.primalArguments[position]? = some a) :
      InputSymbol d a (.plain (placeholder position))
  | cotangent {o : ValueId} {s : Symbol} (hDerivative : a.derivative = true)
      (hTag : d.tagOf? a.value = some ⟨.cotangent, o, a.value⟩)
      (hFunction : (d.roles {}).functionSymbol? o = some s) :
      InputSymbol d a (s.prefixed "\\delta ")
  | tangent {b : Argument} {position : Nat} (hDerivative : a.derivative = true)
      (hTag : d.tagOf? a.value = some ⟨.tangent, b.value, a.value⟩)
      (h : d.primalArguments[position]? = some b) :
      InputSymbol d a ((Symbol.plain (placeholder position)).prefixed "d")

/-- The inputs are both for the tangent, or both for the cotangent, of one value. -/
def SameDerivative (d : Trace) (kind : DerivativeKind) (primal : ValueId) (a b : Argument) : Prop :=
  a.derivative = true ∧ d.tagOf? a.value = some ⟨kind, primal, a.value⟩ ∧
    b.derivative = true ∧ d.tagOf? b.value = some ⟨kind, primal, b.value⟩

/-- The input is for the tangent of a value that is no input of the function itself. -/
def InnerTangent (d : Trace) (a : Argument) : Prop :=
  a.derivative = true ∧ ∀ tag, d.tagOf? a.value = some tag →
    tag.kind = .tangent ∧ tag.primal ∉ d.primalArguments.map (·.value)

/-! ## The symbols before the tags are read -/

namespace Anonymous

theorem inputNames_eq (h : d.Anonymous) : inputNames d.arguments =
    d.primalArguments.zipIdx.map fun x => (x.1.value, placeholder x.2) := by
  have hNone : (d.arguments.filter (·.derivative)).filterMap
      (fun a => a.name.map (a.value, ·)) = [] := by
    rw [List.filterMap_eq_nil_iff]
    intro a ha
    rw [h.unnamed a (List.mem_filter.mp ha).1]
    rfl
  rw [inputNames, hNone, List.append_nil]
  apply List.map_congr_left
  rintro ⟨a, position⟩ hMem
  have ha := List.mem_of_getElem? (List.mk_mem_zipIdx_iff_getElem?.mp hMem)
  rw [h.unnamed a (List.mem_filter.mp ha).1]
  rfl

theorem symbol?_table (h : d.Anonymous) (v : ValueId) : (d.table {}).symbol? v =
    ((d.primalArguments.zipIdx.map fun x => (x.1.value, placeholder x.2)).lookup v).map .plain := by
  rw [table, h.unbound, ← h.inputNames_eq]
  exact symbol?_nameArguments _ _ _

/-- The values that have letters are the inputs of the function itself. -/
private theorem values_eq (arguments : List Argument) :
    (arguments.zipIdx.map fun x => (x.1.value, placeholder x.2)).map (·.1) =
      arguments.map (·.value) := by
  rw [List.map_map]
  show arguments.zipIdx.map ((·.value) ∘ Prod.fst) = _
  rw [← List.map_map, List.zipIdx_map_fst]

/-- An input of the function itself has the letter of its position. -/
theorem symbol?_primal (h : d.Anonymous) {position : Nat}
    (ha : d.primalArguments[position]? = some a) :
    (d.table {}).symbol? a.value = some (.plain (placeholder position)) := by
  have hMem : (a.value, placeholder position) ∈
      d.primalArguments.zipIdx.map fun x => (x.1.value, placeholder x.2) :=
    List.mem_map.mpr ⟨(a, position), List.mk_mem_zipIdx_iff_getElem?.mpr ha, rfl⟩
  have hNodup := h.nodup
  rw [← values_eq] at hNodup
  rw [h.symbol?_table, lookup_eq_some_of_nodup hNodup hMem]
  rfl

/-- A derivative input has no symbol yet. -/
theorem symbol?_derivative (h : d.Anonymous) (ha : a ∈ d.arguments)
    (hDerivative : a.derivative = true) : (d.table {}).symbol? a.value = none := by
  have hNone : (d.primalArguments.zipIdx.map fun x => (x.1.value, placeholder x.2)).lookup a.value =
      none := by
    rw [List.lookup_eq_none_iff]
    intro x hx
    rw [bne_iff_ne]
    intro hEq
    refine h.apart a ha hDerivative ?_
    rw [← values_eq, hEq]
    exact List.mem_map_of_mem hx
  rw [h.symbol?_table, hNone]
  rfl

end Anonymous

/-! ## The symbols in the end -/

/-- What a value was made as stands before all else that its tags say. -/
theorem exists_split_of_tagOf? {tag : DerivativeTag} (h : d.tagOf? v = some tag) :
    tag.value = v ∧ ∃ before after, d.tags = before ++ tag :: after ∧
      ∀ other ∈ before, other.value ≠ v := by
  obtain ⟨hValue, before, after, hSplit, hOther⟩ := List.find?_eq_some_iff_append.mp h
  exact ⟨by simpa using hValue, before, after, hSplit, fun other hMem => by
    simpa using hOther other hMem⟩

/-- **The symbols of inputs in the end.** -/
theorem InputSymbol.symbol? (h : d.Anonymous) (ha : a ∈ d.arguments) (hs : d.InputSymbol a s) :
    (d.threaded {}).1.symbol? a.value = some s := by
  cases hs with
  | primal hPosition => exact grows_threaded _ _ (h.symbol?_primal hPosition)
  | @cotangent o s hDerivative hTag hFunction =>
    obtain ⟨-, before, after, hSplit, hOther⟩ := exists_split_of_tagOf? hTag
    have hLeaf := h.leaf a ha
    have hInput : isSeedTag d.graph ⟨.cotangent, o, a.value⟩ = true := by simp [isSeedTag, hLeaf]
    refine symbol?_of_first_tag hSplit hOther hLeaf (h.symbol?_derivative ha hDerivative) ?_
    rw [if_pos hInput, hFunction]
    rfl
  | @tangent b position hDerivative hTag hPosition =>
    obtain ⟨-, before, after, hSplit, hOther⟩ := exists_split_of_tagOf? hTag
    have hInner : ¬ isSeedTag d.graph ⟨.tangent, b.value, a.value⟩ = true := by simp [isSeedTag]
    -- The primal has its letter when the tag is read.
    have hPrimal : (d.taggedBy {} before).symbol? b.value = some (.plain (placeholder position)) :=
      grows_table_taggedBy before _ _ (h.symbol?_primal hPosition)
    have hBase : (d.roles {}).primalSymbol? (d.taggedBy {} before) b.value =
        some (.plain (placeholder position)) := by
      rw [Threading.primalSymbol?, hPrimal]
      rfl
    refine symbol?_of_first_tag hSplit hOther (h.leaf a ha) (h.symbol?_derivative ha hDerivative) ?_
    rw [if_neg hInner, hBase]

/-- What a cotangent input is for is an output of the function. -/
theorem mem_functionPrimals {o : ValueId} (hLeaf : d.graph.isLeaf v = true)
    (hTag : (⟨.cotangent, o, v⟩ : DerivativeTag) ∈ d.tags) : o ∈ (d.roles {}).functionPrimals := by
  refine List.mem_eraseDups.mpr (List.mem_append_right _ ?_)
  exact List.mem_map.mpr ⟨_, List.mem_filter.mpr ⟨hTag, by simp [isSeedTag, hLeaf]⟩, rfl⟩

/-- Every input has such a symbol, but for tangents of inner values. -/
theorem Anonymous.exists_inputSymbol (h : d.Anonymous) (ha : a ∈ d.arguments)
    (hOuter : ¬ d.InnerTangent a) : ∃ s, d.InputSymbol a s := by
  cases hDerivative : a.derivative with
  | false =>
    have hMem : a ∈ d.primalArguments := List.mem_filter.mpr ⟨ha, by simp [hDerivative]⟩
    obtain ⟨position, hPosition⟩ := List.mem_iff_getElem?.mp hMem
    exact ⟨_, .primal hPosition⟩
  | true =>
    -- An input of a derivative has a tag, and a tangent that is not an inner one belongs to an
    -- input of the function.
    obtain ⟨tag, hTag, hKind⟩ : ∃ tag, d.tagOf? a.value = some tag ∧
        ¬ (tag.kind = .tangent ∧ tag.primal ∉ d.primalArguments.map (·.value)) := by
      simpa [InnerTangent, hDerivative] using hOuter
    obtain ⟨kind, primal, value⟩ := tag
    obtain ⟨rfl, before, after, hSplit, -⟩ := exists_split_of_tagOf? hTag
    cases kind with
    | tangent =>
      have hPrimal : primal ∈ d.primalArguments.map (·.value) := by simpa using hKind
      obtain ⟨b, hb, rfl⟩ := List.mem_map.mp hPrimal
      obtain ⟨position, hPosition⟩ := List.mem_iff_getElem?.mp hb
      exact ⟨_, .tangent hDerivative hTag hPosition⟩
    | cotangent =>
      have hMem := mem_functionPrimals (h.leaf a ha) (o := primal) (by simp [hSplit])
      obtain ⟨s, hs⟩ := Threading.functionSymbol?_isSome hMem
      exact ⟨_, .cotangent hDerivative hTag hs⟩

/-- **These symbols differ**, except for the same derivative of one value. -/
theorem InputSymbol.unique (ha : d.InputSymbol a s) (hb : d.InputSymbol b s) :
    a = b ∨ ∃ kind primal, d.SameDerivative kind primal a b := by
  generalize hs : s = s' at hb
  -- Symbols of different kinds begin differently. Of one kind, the name gives the position back,
  -- and with it the primal.
  cases ha with
  | @primal i hi =>
    cases hb with
    | @primal j hj =>
      obtain rfl := placeholder_injective (congrArg Symbol.name hs)
      exact Or.inl (Option.some.inj (hi.symm.trans hj))
    | cotangent => exact absurd (congrArg Symbol.name hs) (placeholder_ne_cotangent _ _)
    | tangent => exact absurd (congrArg Symbol.name hs) (placeholder_ne_tangent _ _)
  | @cotangent o s hDerivative hTag hFunction =>
    cases hb with
    | primal => exact absurd (congrArg Symbol.name hs).symm (placeholder_ne_cotangent _ _)
    | @cotangent o' s' hDerivative' hTag' hFunction' =>
      have hNames : s.name = s'.name := (String.append_right_inj _).mp (congrArg Symbol.name hs)
      obtain rfl := Threading.eq_of_functionSymbol? hFunction hFunction' hNames
      exact Or.inr ⟨.cotangent, o, hDerivative, hTag, hDerivative', hTag'⟩
    | tangent => exact absurd (congrArg Symbol.name hs).symm (tangent_ne_cotangent _ _)
  | @tangent c i hDerivative hTag hi =>
    cases hb with
    | primal => exact absurd (congrArg Symbol.name hs).symm (placeholder_ne_tangent _ _)
    | cotangent => exact absurd (congrArg Symbol.name hs) (tangent_ne_cotangent _ _)
    | @tangent c' j hDerivative' hTag' hj =>
      obtain rfl := placeholder_injective ((String.append_right_inj _).mp (congrArg Symbol.name hs))
      obtain rfl := Option.some.inj (hi.symm.trans hj)
      exact Or.inr ⟨.tangent, c.value, hDerivative, hTag, hDerivative', hTag'⟩

/-! ## Seeds -/

/-- A recorded trace without names is anonymous. -/
theorem Importable.anonymous (h : t.Importable) (hUnnamed : ∀ a ∈ t.arguments, a.name = none)
    (hUnbound : t.bindings = []) : t.Anonymous where
  unnamed := hUnnamed
  unbound := hUnbound
  leaf := h.wellFormed.leaf_of_argument
  nodup := h.wellFormed.nodup_arguments.sublist (List.filter_sublist.map _)
  apart a ha hDerivative hMem := by
    obtain ⟨b, hb, hValue⟩ := List.mem_map.mp hMem
    obtain ⟨hb, hPrimal⟩ := List.mem_filter.mp hb
    obtain rfl := List.inj_on_of_nodup_map h.wellFormed.nodup_arguments hb ha hValue
    simp [hDerivative] at hPrimal

variable {seeds : List ValueId} {tagged : List DerivativeTag}

/-- Seeds are no inputs of the function itself. -/
theorem primalArguments_of_seeds (hArguments : d.arguments = t.arguments ++ seedArguments seeds) :
    d.primalArguments = t.primalArguments := by
  have hSeeds : (seedArguments seeds).filter (!·.derivative) = [] := by simp [seedArguments]
  rw [primalArguments, hArguments, List.filter_append, hSeeds, List.append_nil, primalArguments]

/-- What a differentiation adds has no names either. -/
theorem Anonymous.of_derives (h : t.Anonymous)
    (hDerives : t.recorder.Derives d.recorder seeds tagged) : d.Anonymous := by
  have hArguments : d.arguments = t.arguments ++ seedArguments seeds := hDerives.arguments
  have hPrimal := primalArguments_of_seeds hArguments
  -- An input of the derivative is one of the function, or a seed, and a seed has no name.
  have hEach : ∀ a ∈ d.arguments, a ∈ t.arguments ∨ ∃ s ∈ seeds, a = ⟨s, none, true⟩ := by
    intro a ha
    rw [hArguments] at ha
    refine (List.mem_append.mp ha).imp_right fun hSeed => ?_
    obtain ⟨s, hs, rfl⟩ := List.mem_map.mp hSeed
    exact ⟨s, hs, rfl⟩
  refine ⟨?_, hDerives.bindings.trans h.unbound, ?_, hPrimal ▸ h.nodup, ?_⟩
  · intro a ha
    rcases hEach a ha with hOwn | ⟨s, -, rfl⟩
    · exact h.unnamed a hOwn
    · rfl
  · intro a ha
    rcases hEach a ha with hOwn | ⟨s, hs, rfl⟩
    · exact hDerives.graph.isLeaf_of (h.leaf a hOwn)
    · exact (hDerives.seed s hs).2
  · intro a ha hDerivative hMem
    rw [hPrimal] at hMem
    rcases hEach a ha with hOwn | ⟨s, hs, rfl⟩
    · exact h.apart a hOwn hDerivative hMem
    · -- A seed is new, and the inputs of the function itself are values of the trace.
      obtain ⟨b, hb, rfl⟩ := List.mem_map.mp hMem
      have hLt := Graph.lt_size_of_isLeaf (h.leaf b (List.mem_filter.mp hb).1)
      exact absurd hLt (Nat.not_lt.mpr (hDerives.seed _ hs).1)

/-- The second trace has the inputs of the first one, and behind them seeds that were made for
derivatives of one kind: for tangents of different inputs, or for cotangents of the outputs. -/
structure Seeded (t d : Trace) (kind : DerivativeKind) (primals seeds : List ValueId) : Prop where
  arguments : d.arguments = t.arguments ++ seedArguments seeds
  tagOf : ∀ s ∈ seeds, ∃ p, (p, s) ∈ primals.zip seeds ∧ d.tagOf? s = some ⟨kind, p, s⟩
  tangent : kind = .tangent → primals.Nodup ∧ ∀ p ∈ primals, p ∈ t.arguments.map (·.value)
  cotangent : kind = .cotangent → seeds ≠ [] → primals = t.outputs

/-- A seed was made as what the tags of the seeds say, for the earlier tags speak of values of the
trace. -/
theorem tagOf?_seed {kind : DerivativeKind} {primals : List ValueId} {more : List DerivativeTag}
    (hDerives : t.recorder.Derives d.recorder seeds (tagsOf kind primals seeds ++ more))
    (hOld : ∀ tag ∈ t.tags, tag.value < t.graph.size) (hLength : primals.length = seeds.length)
    {seed : ValueId} (hs : seed ∈ seeds) :
    ∃ p, (p, seed) ∈ primals.zip seeds ∧ d.tagOf? seed = some ⟨kind, p, seed⟩ := by
  obtain ⟨q, hTag⟩ : ∃ q, ⟨kind, q, seed⟩ ∈ tagsOf kind primals seeds :=
    exists_tag_of_value hLength hs
  have hAll : d.tags = addTags t.tags (tagsOf kind primals seeds ++ more) := hDerives.tags
  rw [addTags_append] at hAll
  obtain ⟨rest, hRest⟩ := exists_addTags_eq (addTags t.tags (tagsOf kind primals seeds)) more
  rw [hRest] at hAll
  -- The first tag of the seed stands before those of the carried derivatives.
  cases hFind : (addTags t.tags (tagsOf kind primals seeds)).find? (·.value == seed) with
  | none =>
    have hNot := List.find?_eq_none.mp hFind _ (mem_addTags.mpr (Or.inr hTag))
    exact absurd (beq_self_eq_true seed) hNot
  | some tag =>
    have hFirst : d.tagOf? seed = some tag := by
      rw [tagOf?, hAll, List.find?_append, hFind]
      rfl
    obtain ⟨rfl, -⟩ := exists_split_of_tagOf? hFirst
    rcases mem_addTags.mp (List.mem_of_find?_eq_some hFind) with hEarlier | hNew
    · exact absurd (hOld tag hEarlier) (Nat.not_lt.mpr (hDerives.seed _ hs).1)
    · obtain ⟨rfl, hZip⟩ := mem_tagsOf.mp hNew
      exact ⟨tag.primal, hZip, hFirst⟩

/-- **What a differentiation adds to the inputs.** -/
theorem Importable.exists_seeded (h : t.Importable) (hDerived : d = t ∨
    ∃ mode positions, t.differentiate mode positions = .ok d) (hAnonymous : t.Anonymous) :
    d.Anonymous ∧ ∃ kind primals seeds, t.Seeded d kind primals seeds := by
  have hOld : ∀ tag ∈ t.tags, tag.value < t.graph.size := fun tag hTag => (h.tag_lt tag hTag).2
  rcases hDerived with rfl | ⟨mode, positions, hDerivative⟩
  · -- The function itself has no seeds.
    exact ⟨hAnonymous, .cotangent, [], [], (List.append_nil _).symm, by simp, by simp, by simp⟩
  · obtain ⟨wrt, hSelect⟩ := exists_selectArguments_of_differentiate hDerivative
    by_cases hMode : mode = .jvp
    · subst hMode
      obtain ⟨seeds, tangents, carried, hDerives⟩ :=
        derivesForward h.wellFormed hSelect hDerivative
      have hSelects := selects_of_selectArguments h.wellFormed hSelect
      exact ⟨hAnonymous.of_derives hDerives.recorder, .tangent, wrt, seeds,
        hDerives.recorder.arguments,
        fun s hs => tagOf?_seed hDerives.recorder hOld hDerives.seeds_length.symm hs,
        fun _ => ⟨hSelects.nodup, hSelects.argument⟩, by simp⟩
    · obtain ⟨seeds, starts, carried, hDerives⟩ :=
        derivesBackward h.wellFormed hMode hSelect hDerivative
      refine ⟨hAnonymous.of_derives hDerives.recorder, .cotangent, t.outputs, seeds,
        hDerives.recorder.arguments, fun s hs => ?_, by simp, fun _ _ => rfl⟩
      -- A gradient starts from the constant one and adds no seeds.
      rcases hDerives.starts with ⟨rfl, -⟩ | ⟨rfl, -⟩
      · exact tagOf?_seed hDerives.recorder hOld hDerives.starts_length.symm hs
      · exact absurd hs List.not_mem_nil

/-- A value that is paired with two others stands twice in its list. -/
private theorem two_le_count_of_zip {ps ss : List ValueId} {p s s' : ValueId}
    (h : (p, s) ∈ ps.zip ss) (h' : (p, s') ∈ ps.zip ss) (hNe : s ≠ s') : 2 ≤ ps.count p := by
  induction ps generalizing ss with
  | nil => exact absurd h (by simp)
  | cons q ps ih =>
    cases ss with
    | nil => exact absurd h (by simp)
    | cons u ss =>
      rw [List.zip_cons_cons, List.mem_cons] at h h'
      rw [List.count_cons]
      -- One occurrence may be the first in the row; the other one is then counted behind it.
      rcases h with hEq | hMem <;> rcases h' with hEq' | hMem'
      · exact absurd ((Prod.mk.inj hEq).2.trans (Prod.mk.inj hEq').2.symm) hNe
      · obtain ⟨rfl, -⟩ := Prod.mk.inj hEq
        have hPos := List.count_pos_iff.mpr (List.of_mem_zip hMem').1
        rw [beq_self_eq_true, if_pos rfl]
        omega
      · obtain ⟨rfl, -⟩ := Prod.mk.inj hEq'
        have hPos := List.count_pos_iff.mpr (List.of_mem_zip hMem).1
        rw [beq_self_eq_true, if_pos rfl]
        omega
      · have hRest := ih hMem hMem'
        omega

namespace Seeded

variable {kind : DerivativeKind} {primals : List ValueId}

/-- The derivative inputs are the seeds, if the function has none of its own. -/
theorem exists_seed (h : t.Seeded d kind primals seeds)
    (hOwn : ∀ a ∈ t.arguments, a.derivative = false) (ha : a ∈ d.arguments)
    (hDerivative : a.derivative = true) : ∃ s ∈ seeds, a = ⟨s, none, true⟩ := by
  rw [h.arguments] at ha
  rcases List.mem_append.mp ha with hMem | hSeed
  · exact absurd ((hOwn a hMem).symm.trans hDerivative) (by simp)
  · obtain ⟨s, hs, rfl⟩ := List.mem_map.mp hSeed
    exact ⟨s, hs, rfl⟩

/-- Then no input is for the tangent of an inner value. -/
theorem not_innerTangent (h : t.Seeded d kind primals seeds)
    (hOwn : ∀ a ∈ t.arguments, a.derivative = false) (ha : a ∈ d.arguments) :
    ¬ d.InnerTangent a := by
  rintro ⟨hDerivative, hInner⟩
  obtain ⟨s, hs, rfl⟩ := h.exists_seed hOwn ha hDerivative
  obtain ⟨p, hZip, hTag⟩ := h.tagOf s hs
  obtain ⟨hKind, hNot⟩ := hInner _ hTag
  obtain ⟨b, hb, rfl⟩ := List.mem_map.mp ((h.tangent hKind).2 p (List.of_mem_zip hZip).1)
  apply hNot
  rw [primalArguments_of_seeds h.arguments]
  exact List.mem_map_of_mem (List.mem_filter.mpr ⟨hb, by simp [hOwn b hb]⟩)

/-- And two inputs for the same derivative of one value are cotangents of one that is returned
twice. -/
theorem two_le_count (h : t.Seeded d kind primals seeds)
    (hOwn : ∀ a ∈ t.arguments, a.derivative = false) (ha : a ∈ d.arguments) (hb : b ∈ d.arguments)
    (hNe : a ≠ b) {kind' : DerivativeKind} {p : ValueId}
    (hSame : d.SameDerivative kind' p a b) : kind' = .cotangent ∧ 2 ≤ t.outputs.count p := by
  obtain ⟨haDerivative, haTag, hbDerivative, hbTag⟩ := hSame
  obtain ⟨s, hs, rfl⟩ := h.exists_seed hOwn ha haDerivative
  obtain ⟨s', hs', rfl⟩ := h.exists_seed hOwn hb hbDerivative
  have hSeeds : s ≠ s' := fun hEq => hNe (by rw [hEq])
  obtain ⟨q, hZip, hTag⟩ := h.tagOf s hs
  obtain ⟨q', hZip', hTag'⟩ := h.tagOf s' hs'
  obtain ⟨rfl, rfl, -⟩ := DerivativeTag.mk.inj (Option.some.inj (hTag.symm.trans haTag))
  obtain ⟨-, rfl, -⟩ := DerivativeTag.mk.inj (Option.some.inj (hTag'.symm.trans hbTag))
  have hTwice := two_le_count_of_zip hZip hZip' hSeeds
  cases kind with
  | tangent =>
    have hOnce := List.nodup_iff_count_le_one.mp (h.tangent rfl).1 q'
    omega
  | cotangent => exact ⟨rfl, h.cotangent rfl (List.ne_nil_of_mem hs) ▸ hTwice⟩

end Seeded

/-- Cotangents of one value have one symbol. -/
theorem SameDerivative.symbol?_eq (h : d.Anonymous) (ha : a ∈ d.arguments) (hb : b ∈ d.arguments)
    {o : ValueId} (hSame : d.SameDerivative .cotangent o a b) :
    (d.threaded {}).1.symbol? a.value = (d.threaded {}).1.symbol? b.value := by
  obtain ⟨haDerivative, haTag, hbDerivative, hbTag⟩ := hSame
  obtain ⟨-, before, after, hSplit, -⟩ := exists_split_of_tagOf? haTag
  obtain ⟨s, hs⟩ := Threading.functionSymbol?_isSome
    (mem_functionPrimals (h.leaf a ha) (o := o) (by simp [hSplit]))
  rw [InputSymbol.symbol? h ha (.cotangent haDerivative haTag hs),
    InputSymbol.symbol? h hb (.cotangent hbDerivative hbTag hs)]

/-- **Which inputs have one symbol.** Take a trace that is recorded without names for its inputs and
without bindings, as it is or after one differentiation. Every input has a symbol. Two inputs with
one symbol are for the same derivative of one value, unless one of them is for the tangent of a
value that is no input of the function. If the function adds no derivative inputs itself, then two
inputs have one symbol exactly if they are cotangents of one value, which it returns twice. -/
theorem inputs_told_apart (ht : t.IsRecorded) (hUnnamed : ∀ a ∈ t.arguments, a.name = none)
    (hUnbound : t.bindings = [])
    (hDerived : d = t ∨ ∃ mode positions, t.differentiate mode positions = .ok d) :
    (∀ a ∈ d.arguments, (d.threaded {}).1.hasSymbol a.value = true) ∧
    (∀ a ∈ d.arguments, ∀ b ∈ d.arguments, a ≠ b →
      (d.threaded {}).1.symbol? a.value = (d.threaded {}).1.symbol? b.value →
      (∃ kind p, d.SameDerivative kind p a b) ∨ d.InnerTangent a ∨ d.InnerTangent b) ∧
    ((∀ a ∈ t.arguments, a.derivative = false) →
      ∀ a ∈ d.arguments, ∀ b ∈ d.arguments, a ≠ b →
        ((d.threaded {}).1.symbol? a.value = (d.threaded {}).1.symbol? b.value ↔
          ∃ o, 2 ≤ t.outputs.count o ∧ d.SameDerivative .cotangent o a b)) := by
  have hImportable := ht.importable
  obtain ⟨hAnonymous, kind, primals, seeds, hSeeded⟩ :=
    hImportable.exists_seeded hDerived (hImportable.anonymous hUnnamed hUnbound)
  -- Without inner tangents each input has one of the three symbols, and these are unique up to
  -- inputs for one derivative.
  have hShared : ∀ a ∈ d.arguments, ∀ b ∈ d.arguments, a ≠ b →
      (d.threaded {}).1.symbol? a.value = (d.threaded {}).1.symbol? b.value →
      (∃ kind p, d.SameDerivative kind p a b) ∨ d.InnerTangent a ∨ d.InnerTangent b := by
    intro a ha b hb hNe hSymbols
    by_cases haInner : d.InnerTangent a
    · exact Or.inr (Or.inl haInner)
    · by_cases hbInner : d.InnerTangent b
      · exact Or.inr (Or.inr hbInner)
      · obtain ⟨s, hs⟩ := hAnonymous.exists_inputSymbol ha haInner
        obtain ⟨s', hs'⟩ := hAnonymous.exists_inputSymbol hb hbInner
        rw [hs.symbol? hAnonymous ha, hs'.symbol? hAnonymous hb, Option.some.injEq] at hSymbols
        subst hSymbols
        exact Or.inl ((hs.unique hs').resolve_left hNe)
  refine ⟨fun a ha => hasSymbol_nameLeftovers ha, hShared, ?_⟩
  intro hOwn a ha b hb hNe
  constructor
  · -- Where the function has no derivative inputs, there are no inner tangents, and a derivative
    -- has several inputs only for an output that is given several times.
    intro hSymbols
    rcases hShared a ha b hb hNe hSymbols with ⟨kind', p, hSame⟩ | hInner | hInner
    · obtain ⟨rfl, hTwice⟩ := hSeeded.two_le_count hOwn ha hb hNe hSame
      exact ⟨p, hTwice, hSame⟩
    · exact absurd hInner (hSeeded.not_innerTangent hOwn ha)
    · exact absurd hInner (hSeeded.not_innerTangent hOwn hb)
  · rintro ⟨o, -, hSame⟩
    exact hSame.symbol?_eq hAnonymous ha hb

/-- The product of two numbers. -/
def unnamedProduct : Trace where
  name := "f"
  graph := ⟨#[⟨.leaf, []⟩, ⟨.leaf, []⟩, ⟨.op (.arith .mul) [0, 1], []⟩]⟩
  arguments := [⟨0, none, false⟩, ⟨1, none, false⟩]
  bindings := []
  tags := []
  outputs := [2]

/-- Its tangent. -/
def unnamedProductTangent : Trace where
  name := "f"
  graph := ⟨#[⟨.leaf, []⟩, ⟨.leaf, []⟩, ⟨.op (.arith .mul) [0, 1], []⟩, ⟨.leaf, []⟩, ⟨.leaf, []⟩,
    ⟨.op (.arith .mul) [3, 1], []⟩, ⟨.op (.arith .mul) [0, 4], []⟩,
    ⟨.op (.arith .add) [5, 6], []⟩]⟩
  arguments := [⟨0, none, false⟩, ⟨1, none, false⟩, ⟨3, none, true⟩, ⟨4, none, true⟩]
  bindings := []
  tags := [⟨.tangent, 0, 3⟩, ⟨.tangent, 1, 4⟩, ⟨.tangent, 2, 7⟩]
  outputs := [2, 7]

/-- The tangents of the two numbers have different symbols. -/
theorem inputs_told_apart_unnamedProduct :
    unnamedProduct.differentiate .jvp [] = .ok unnamedProductTangent ∧
      (unnamedProductTangent.threaded {}).1.symbol? 3 ≠
        (unnamedProductTangent.threaded {}).1.symbol? 4 := by
  have hRecorded : unnamedProduct.IsRecorded :=
    ⟨[.argument [] none, .argument [] none, .arith .mul 0 1],
      ⟨unnamedProduct.graph, unnamedProduct.arguments, [], [], none⟩, "f", [2], rfl, rfl⟩
  have hDerivative : unnamedProduct.differentiate .jvp [] = .ok unnamedProductTangent := by decide
  obtain ⟨-, -, hApart⟩ := inputs_told_apart hRecorded (by decide) rfl
    (Or.inr ⟨.jvp, [], hDerivative⟩)
  refine ⟨hDerivative, fun hEq => ?_⟩
  obtain ⟨o, hTwice, -⟩ := (hApart (by decide) ⟨3, none, true⟩ (by decide) ⟨4, none, true⟩
    (by decide) (by decide)).mp hEq
  have hOnce := List.nodup_iff_count_le_one.mp (List.nodup_singleton (2 : ValueId)) o
  exact absurd hTwice (Nat.not_le.mpr (Nat.lt_succ_of_le hOnce))

/-- The square of a number, returned twice. -/
def squareTwice : Trace where
  name := "f"
  graph := ⟨#[⟨.leaf, []⟩, ⟨.op (.arith .mul) [0, 0], []⟩]⟩
  arguments := [⟨0, none, false⟩]
  bindings := []
  tags := []
  outputs := [1, 1]

/-- Its cotangent, from the seeds `2` and `3`. -/
def squareTwiceCotangent : Trace where
  name := "f"
  graph := ⟨#[⟨.leaf, []⟩, ⟨.op (.arith .mul) [0, 0], []⟩, ⟨.leaf, []⟩, ⟨.leaf, []⟩,
    ⟨.op .accumulate [2, 3], []⟩, ⟨.op (.arith .mul) [4, 0], []⟩,
    ⟨.op (.arith .mul) [0, 4], []⟩, ⟨.op .accumulate [5, 6], []⟩]⟩
  arguments := [⟨0, none, false⟩, ⟨2, none, true⟩, ⟨3, none, true⟩]
  bindings := []
  tags := [⟨.cotangent, 1, 2⟩, ⟨.cotangent, 1, 3⟩, ⟨.cotangent, 0, 7⟩]
  outputs := [7]

/-- **The seeds of a value that is returned twice look alike**: both are `\delta f`, and the
equation of the cotangent does not tell which is which. -/
theorem seeds_look_alike :
    squareTwice.IsRecorded ∧ (∀ a ∈ squareTwice.arguments, a.name = none) ∧
      squareTwice.bindings = [] ∧
      squareTwice.differentiate .vjp [0] = .ok squareTwiceCotangent ∧
      squareTwiceCotangent.arguments = [⟨0, none, false⟩, ⟨2, none, true⟩, ⟨3, none, true⟩] ∧
      (squareTwiceCotangent.threaded {}).1.symbol? 2 = some (.plain "\\delta f") ∧
      (squareTwiceCotangent.threaded {}).1.symbol? 3 = some (.plain "\\delta f") := by
  refine ⟨?_, by decide, rfl, by decide +kernel, rfl, by decide +kernel, by decide +kernel⟩
  exact ⟨[.argument [] none, .arith .mul 0 0],
    ⟨squareTwice.graph, squareTwice.arguments, [], [], none⟩, "f", [1, 1], rfl, rfl⟩

/-- An input for the tangent of an inner value, here the square of a number, has the letter of its
position among all inputs, which may be that of an input of the function itself. -/
example :
    let d : Trace := ⟨"f", ⟨#[⟨.leaf, []⟩, ⟨.op (.arith .mul) [0, 0], []⟩, ⟨.leaf, []⟩,
        ⟨.leaf, []⟩, ⟨.op (.arith .add) [0, 3], []⟩]⟩,
      [⟨0, none, false⟩, ⟨2, none, true⟩, ⟨3, none, false⟩], [], [⟨.tangent, 1, 2⟩], [4]⟩
    (d.threaded {}).1.symbol? 2 = some (.plain "b") ∧
      (d.threaded {}).1.symbol? 3 = some (.plain "b") := by decide +kernel

end Trace

end ArrayEquations
