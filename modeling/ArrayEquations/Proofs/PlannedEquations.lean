import ArrayEquations.Proofs.EquationSoundness

/-!
# ArrayEquations — which equations are planned

There is an equation for each binding that owns its value, one for each kind of derivative of a
bound value, and one for each output. Of several tags of one kind and primal only the first
gets an equation; but its symbol is the same for all of them.

## Main results

* `exists_derivativeEquation` — the tags of bound values have equations.
* `planned_binding`, `planned_cotangent`, `planned_output` — what is planned.
* `root_of_mem_planProgram` — and nothing else is.
-/

namespace ArrayEquations

/-! ## Derivative equations -/

section Derivatives

/-- The first tag of each kind and primal. -/
private def firstTags (tags : List DerivativeTag) : List DerivativeTag :=
  tags.foldl (fun firsts tag =>
    if firsts.any fun f => f.kind == tag.kind && f.primal == tag.primal then firsts
    else firsts ++ [tag]) []

private theorem firstTags_concat (tags : List DerivativeTag) (tag : DerivativeTag) :
    firstTags (tags ++ [tag]) =
      if (firstTags tags).any fun f => f.kind == tag.kind && f.primal == tag.primal then
        firstTags tags
      else firstTags tags ++ [tag] := by
  rw [firstTags, List.foldl_append]
  rfl

/-- Each tag has a first one of its kind and primal, which is one of the tags. -/
private theorem firstTags_spec (tags : List DerivativeTag) :
    (∀ f ∈ firstTags tags, f ∈ tags) ∧
      ∀ tag ∈ tags, ∃ f ∈ firstTags tags, f.kind = tag.kind ∧ f.primal = tag.primal := by
  induction tags using List.reverseRecOn with
  | nil => exact ⟨fun f hf => absurd hf List.not_mem_nil, fun t ht => absurd ht List.not_mem_nil⟩
  | append_singleton tags tag ih =>
    obtain ⟨hFrom, hFirst⟩ := ih
    rw [firstTags_concat]
    split
    · -- The new tag is passed over, for there is one of its kind and primal.
      rename_i hAny
      refine ⟨fun f hf => List.mem_append_left _ (hFrom f hf), ?_⟩
      intro t ht
      rcases List.mem_append.mp ht with ht | ht
      · exact hFirst t ht
      · obtain rfl := List.mem_singleton.mp ht
        obtain ⟨f, hf, hSame⟩ := List.any_eq_true.mp hAny
        exact ⟨f, hf, by simpa using hSame⟩
    · refine ⟨?_, ?_⟩
      · intro f hf
        rcases List.mem_append.mp hf with hf | hf
        · exact List.mem_append_left _ (hFrom f hf)
        · exact List.mem_append_right _ hf
      · intro t ht
        rcases List.mem_append.mp ht with ht | ht
        · obtain ⟨f, hf, hSame⟩ := hFirst t ht
          exact ⟨f, List.mem_append_left _ hf, hSame⟩
        · exact ⟨tag, by simp, by rw [List.mem_singleton.mp ht]; exact ⟨rfl, rfl⟩⟩

variable {trace : Trace} {t : Threading} {names : NameTable} {s : Symbol}

private theorem derivativeEquations_eq : derivativeEquations trace t names =
    (firstTags (trace.tags.filter fun tag =>
      names.isBound tag.primal && !trace.graph.isLeaf tag.value)).filterMap fun tag =>
        (names.symbol? tag.primal).map fun symbol =>
          ⟨tag.kind, tag.primal, tag.value, symbol.prefixed (t.prefixOf tag.kind)⟩ := rfl

/-- The equations of derivatives are about values of tags. -/
theorem tag_of_mem_derivativeEquations {d : DerivativeEquation}
    (h : d ∈ derivativeEquations trace t names) : ∃ tag ∈ trace.tags, d.value = tag.value := by
  rw [derivativeEquations_eq] at h
  obtain ⟨tag, hTag, hEq⟩ := List.mem_filterMap.mp h
  obtain ⟨symbol, -, rfl⟩ := Option.map_eq_some_iff.mp hEq
  exact ⟨tag, (List.mem_filter.mp ((firstTags_spec _).1 tag hTag)).1, rfl⟩

/-- There is an equation for each tag of a bound value whose derivative is no input; the symbol is
that of the bound value, prefixed, also where another tag came first. -/
theorem exists_derivativeEquation {tag : DerivativeTag} (hTag : tag ∈ trace.tags)
    (hBound : names.isBound tag.primal = true) (hLeaf : trace.graph.isLeaf tag.value = false)
    (hSymbol : names.symbol? tag.primal = some s) :
    ∃ d ∈ derivativeEquations trace t names, d.kind = tag.kind ∧ d.primal = tag.primal ∧
      d.symbol = s.prefixed (t.prefixOf tag.kind) := by
  have hKept : tag ∈ trace.tags.filter fun tag =>
      names.isBound tag.primal && !trace.graph.isLeaf tag.value :=
    List.mem_filter.mpr ⟨hTag, by simp [hBound, hLeaf]⟩
  obtain ⟨first, hFirst, hKind, hPrimal⟩ := (firstTags_spec _).2 tag hKept
  refine ⟨⟨first.kind, first.primal, first.value, s.prefixed (t.prefixOf first.kind)⟩, ?_, hKind,
    hPrimal, by rw [hKind]⟩
  rw [derivativeEquations_eq]
  exact List.mem_filterMap.mpr ⟨first, hFirst, by rw [hPrimal, hSymbol]; rfl⟩

end Derivatives

/-! ## Plans -/

section Plans

variable {trace : Trace} {t : Threading} {names : NameTable} {b : BoundName}

theorem planned_binding (hb : b ∈ names.bound) (hOwns : b.ownsValue = true) :
    ⟨.binding, b.symbol, b.value⟩ ∈ planProgram trace names t := by
  apply List.mem_append_left
  apply List.mem_append_left
  refine List.mem_flatMap.mpr ⟨b, hb, ?_⟩
  rw [planBinding, if_pos hOwns]
  exact List.mem_cons_self

theorem planned_cotangent (hb : b ∈ names.bound) (hOwns : b.ownsValue = true)
    {d : DerivativeEquation} (hd : d ∈ t.derivatives) (hKind : d.kind = .cotangent)
    (hPrimal : d.primal = b.value) :
    ⟨.derivative, d.symbol, d.value⟩ ∈ planProgram trace names t := by
  apply List.mem_append_left
  apply List.mem_append_right
  refine List.mem_flatMap.mpr ⟨b, ?_, ?_⟩
  · exact List.mem_reverse.mpr (List.mem_filter.mpr ⟨hb, hOwns⟩)
  · exact List.mem_map.mpr ⟨d, List.mem_filter.mpr ⟨hd, by simp [hKind, hPrimal]⟩, rfl⟩

theorem planned_output {o : ValueId} (ho : o ∈ trace.outputs) :
    ⟨.output, t.outputSymbol trace names o, o⟩ ∈ planProgram trace names t :=
  List.mem_append_right _ (List.mem_map.mpr ⟨o, ho, rfl⟩)

/-- Equations are planned for bound values, derivatives and outputs. -/
theorem root_of_mem_planProgram {p : EquationPlan} (h : p ∈ planProgram trace names t) :
    p.root ∈ names.bound.map (·.value) ∨ (∃ d ∈ t.derivatives, p.root = d.value) ∨
      p.root ∈ trace.outputs := by
  have hDerivative : ∀ {kind : DerivativeKind} {v : ValueId}, p ∈ planDerivatives t kind v →
      ∃ d ∈ t.derivatives, p.root = d.value := by
    intro kind v hp
    obtain ⟨d, hd, rfl⟩ := List.mem_map.mp hp
    exact ⟨d, (List.mem_filter.mp hd).1, rfl⟩
  rcases List.mem_append.mp h with h | h
  · rcases List.mem_append.mp h with h | h
    · obtain ⟨b, hb, hp⟩ := List.mem_flatMap.mp h
      have hValue : b.value ∈ names.bound.map (·.value) := List.mem_map.mpr ⟨b, hb, rfl⟩
      unfold planBinding at hp
      split at hp
      · rcases List.mem_cons.mp hp with rfl | hp
        · exact Or.inl hValue
        · exact Or.inr (Or.inl (hDerivative hp))
      · split at hp
        · exact absurd hp List.not_mem_nil
        · obtain rfl := List.mem_singleton.mp hp
          exact Or.inl hValue
    · obtain ⟨b, -, hp⟩ := List.mem_flatMap.mp h
      exact Or.inr (Or.inl (hDerivative hp))
  · obtain ⟨o, ho, rfl⟩ := List.mem_map.mp h
    exact Or.inr (Or.inr ho)

end Plans

end ArrayEquations
