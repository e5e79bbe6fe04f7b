import ArrayEquations.Proofs.Extension
import ArrayEquations.Transcription

/-!
# ArrayEquations — where symbols come from

A table only grows: the first symbol of a value stays. Arguments and bindings give symbols
first, tags after them in order, and the arguments that are left over get placeholders in the
end. So each symbol of the final table has one origin.

## Main definitions

* `NameTable.Grows` — more values have symbols.
* `nameTag` — the table after one tag.
* `Trace.table`, `Trace.threaded` — the symbols of a trace before and after its tags.

## Main results

* `resolvedNames` — a resolved symbol is that of an argument or of the binding that owns
  the value.
* `origin_of_nameTags` — any other symbol comes from a tag, in the order of the tags.
* `Trace.names_run`, `Trace.program_run` — what a run makes.
-/

namespace ArrayEquations

namespace NameTable

variable {t t' t'' : NameTable} {v w : ValueId} {s s' : Symbol}

/-! ## One symbol more -/

theorem hasSymbol_iff : t.hasSymbol v = true ↔ ∃ s, t.symbol? v = some s := Option.isSome_iff_exists

theorem hasSymbol_of_some (h : t.symbol? v = some s) : t.hasSymbol v = true :=
  hasSymbol_iff.mpr ⟨s, h⟩

/-- A value that has no symbol gets the one assigned. -/
theorem symbol?_assign_self (h : t.symbol? v = none) : (t.assign v s).symbol? v = some s := by
  have hNot : ¬ t.hasSymbol v = true := by simp [hasSymbol, h]
  rw [assign, if_neg hNot]
  show (t.symbols ++ [(v, s)]).lookup v = some s
  have hNone : t.symbols.lookup v = none := h
  rw [List.lookup_append, hNone]
  simp

theorem symbol?_assign_of_ne (h : w ≠ v) : (t.assign v s).symbol? w = t.symbol? w := by
  unfold assign
  split
  · rfl
  · show (t.symbols ++ [(v, s)]).lookup w = t.symbols.lookup w
    have hKey : (w == v) = false := beq_false_of_ne h
    rw [List.lookup_append, List.lookup_cons]
    simp [hKey]

theorem assign_of_some (h : t.symbol? v = some s') : t.assign v s = t := by
  rw [assign, if_pos (hasSymbol_of_some h)]

@[simp] theorem bound_assign : (t.assign v s).bound = t.bound := by
  unfold assign
  split <;> rfl

theorem function_assign : (t.assign v s).function = t.function := by
  unfold assign
  split <;> rfl

/-- Every symbol of the first table is in the second one. -/
def Grows (t t' : NameTable) : Prop := ∀ v s, t.symbol? v = some s → t'.symbol? v = some s

theorem Grows.refl (t : NameTable) : t.Grows t := fun _ _ h => h

theorem Grows.trans (h : t.Grows t') (h' : t'.Grows t'') : t.Grows t'' :=
  fun v s hSymbol => h' v s (h v s hSymbol)

theorem grows_assign : t.Grows (t.assign v s) := by
  intro w s' h
  by_cases hEq : w = v
  · subst hEq
    rwa [assign_of_some h]
  · rwa [symbol?_assign_of_ne hEq]

/-- A symbol was there, or it is the one assigned. -/
theorem symbol?_assign_cases (h : (t.assign v s).symbol? w = some s') :
    t.symbol? w = some s' ∨ t.symbol? w = none ∧ w = v ∧ s' = s := by
  by_cases hEq : w = v
  · subst hEq
    cases hSymbol : t.symbol? w with
    | some own =>
      rw [assign_of_some hSymbol, hSymbol] at h
      exact Or.inl h
    | none =>
      rw [symbol?_assign_self hSymbol] at h
      exact Or.inr ⟨rfl, rfl, (Option.some.inj h).symm⟩
  · rw [symbol?_assign_of_ne hEq] at h
    exact Or.inl h

/-- A value has a symbol once one was assigned. -/
theorem hasSymbol_assign : (t.assign v s).hasSymbol v = true := by
  cases hSymbol : t.symbol? v with
  | some own => exact hasSymbol_of_some (grows_assign v own hSymbol)
  | none => exact hasSymbol_of_some (symbol?_assign_self hSymbol)

theorem Grows.hasSymbol (h : t.Grows t') (hSymbol : t.hasSymbol v = true) :
    t'.hasSymbol v = true := by
  obtain ⟨s, hs⟩ := hasSymbol_iff.mp hSymbol
  exact hasSymbol_of_some (h v s hs)

/-! ## Loops -/

section Loop

variable {α : Type} {f : NameTable → α → NameTable}

/-- The first symbol stays in a loop too. -/
theorem grows_foldl (hStep : ∀ (t : NameTable) a, t.Grows (f t a)) (as : List α) (t : NameTable) :
    t.Grows (as.foldl f t) := by
  induction as generalizing t with
  | nil => exact Grows.refl t
  | cons a as ih => exact (hStep t a).trans (ih (f t a))

/-- A symbol of a loop was there, or one of its steps gave it to a value that had none. -/
theorem origin_of_foldl (hStep : ∀ (t : NameTable) a, t.Grows (f t a)) {as : List α}
    (h : (as.foldl f t).symbol? v = some s) :
    t.symbol? v = some s ∨ ∃ before a after, as = before ++ a :: after ∧
      (before.foldl f t).symbol? v = none ∧ (f (before.foldl f t) a).symbol? v = some s := by
  -- The induction is from the end, for the step that gave the symbol is seen from the table before.
  induction as using List.reverseRecOn with
  | nil => exact Or.inl h
  | append_singleton as a ih =>
    rw [List.foldl_append] at h
    cases hBefore : (as.foldl f t).symbol? v with
    | none => exact Or.inr ⟨as, a, [], rfl, hBefore, h⟩
    | some own =>
      have hKept : (f (as.foldl f t) a).symbol? v = some own := hStep _ a v own hBefore
      obtain rfl : own = s := Option.some.inj (hKept.symm.trans h)
      rcases ih hBefore with hStart | ⟨before, a', after, rfl, hNone, hSome⟩
      · exact Or.inl hStart
      · exact Or.inr ⟨before, a', after ++ [a], by simp, hNone, hSome⟩

/-- After a loop that gives a symbol to each value asked for, these have one. -/
theorem hasSymbol_foldl (value : α → ValueId) (hStep : ∀ (t : NameTable) a, t.Grows (f t a))
    (hGives : ∀ (t : NameTable) a, (f t a).hasSymbol (value a) = true) {as : List α} {a : α}
    (ha : a ∈ as) (t : NameTable) : (as.foldl f t).hasSymbol (value a) = true := by
  induction as generalizing t with
  | nil => exact absurd ha List.not_mem_nil
  | cons a' as ih =>
    rcases List.mem_cons.mp ha with rfl | ha
    · exact (grows_foldl hStep as _).hasSymbol (hGives t a)
    · exact ih ha _

/-- What no step of a loop changes is the same after the loop. -/
theorem keeps_foldl {β : Type*} (part : NameTable → β)
    (hStep : ∀ (t : NameTable) a, part (f t a) = part t) (as : List α) (t : NameTable) :
    part (as.foldl f t) = part t := by
  induction as generalizing t with
  | nil => rfl
  | cons a as ih => exact (ih (f t a)).trans (hStep t a)

end Loop

end NameTable

open NameTable

/-! ## Arguments and bindings -/

section Resolve

variable {arguments : List Argument} {bindings : List Binding} {t : NameTable} {v : ValueId}
  {s : Symbol}

/-- The loop over the arguments that are inputs of the function itself. -/
private def namePrimal (t : NameTable) (x : Argument × Nat) : NameTable :=
  t.assign x.1.value (.plain (x.1.name.getD (placeholder x.2)))

/-- The loop over the derivative inputs. -/
private def nameDerivative (t : NameTable) (a : Argument) : NameTable :=
  match a.name with
  | some name => t.assign a.value (.plain name)
  | none => t

private theorem nameArguments_eq (t : NameTable) (arguments : List Argument) :
    nameArguments t arguments = (arguments.filter (·.derivative)).foldl nameDerivative
      ((arguments.filter (!·.derivative)).zipIdx.foldl namePrimal t) := rfl

private theorem grows_namePrimal (t : NameTable) (x : Argument × Nat) : t.Grows (namePrimal t x) :=
  grows_assign

private theorem grows_nameDerivative (t : NameTable) (a : Argument) :
    t.Grows (nameDerivative t a) := by
  unfold nameDerivative
  split
  · exact grows_assign
  · exact Grows.refl t

/-- Naming the arguments changes nothing that giving a value a symbol does not change. -/
private theorem keeps_nameArguments {β : Type*} (part : NameTable → β)
    (hAssign : ∀ (t : NameTable) v s, part (t.assign v s) = part t) (t : NameTable)
    (arguments : List Argument) : part (nameArguments t arguments) = part t := by
  rw [nameArguments_eq, keeps_foldl part, keeps_foldl part]
  · exact fun t x => hAssign t _ _
  · intro t a
    unfold nameDerivative
    split
    · exact hAssign t _ _
    · rfl

/-- Naming the arguments binds nothing. -/
theorem bound_nameArguments (t : NameTable) (arguments : List Argument) :
    (nameArguments t arguments).bound = t.bound :=
  keeps_nameArguments NameTable.bound (fun _ _ _ => bound_assign) t arguments

theorem origin_of_nameArguments (h : (nameArguments t arguments).symbol? v = some s) :
    t.symbol? v = some s ∨ v ∈ arguments.map (·.value) := by
  rw [nameArguments_eq] at h
  -- A symbol is from the second round, from the first, or from the table at the start.
  rcases origin_of_foldl grows_nameDerivative h with hPrimal | ⟨before, a, after, hSplit, hNone, h⟩
  · rcases origin_of_foldl grows_namePrimal hPrimal with
      hStart | ⟨before, ⟨a, k⟩, after, hSplit, hNone, h⟩
    · exact Or.inl hStart
    · right
      obtain hOld | ⟨-, rfl, -⟩ := symbol?_assign_cases h
      · exact absurd (hNone.symm.trans hOld) (by simp)
      · have hMem : (a, k) ∈ (arguments.filter (!·.derivative)).zipIdx := by simp [hSplit]
        have ha := List.mem_of_getElem? (List.mk_mem_zipIdx_iff_getElem?.mp hMem)
        exact List.mem_map.mpr ⟨a, (List.mem_filter.mp ha).1, rfl⟩
  · right
    have ha : a ∈ arguments.filter (·.derivative) := by simp [hSplit]
    unfold nameDerivative at h
    split at h
    · obtain hOld | ⟨-, rfl, -⟩ := symbol?_assign_cases h
      · exact absurd (hNone.symm.trans hOld) (by simp)
      · exact List.mem_map.mpr ⟨a, (List.mem_filter.mp ha).1, rfl⟩
    · exact absurd (hNone.symm.trans h) (by simp)

/-- The inputs of the function itself have symbols. -/
theorem hasSymbol_nameArguments {a : Argument} (ha : a ∈ arguments)
    (hPrimal : a.derivative = false) : (nameArguments t arguments).hasSymbol a.value = true := by
  rw [nameArguments_eq]
  apply (grows_foldl grows_nameDerivative _ _).hasSymbol
  have hMem : a ∈ arguments.filter (!·.derivative) := List.mem_filter.mpr ⟨ha, by simp [hPrimal]⟩
  obtain ⟨k, hk, rfl⟩ := List.getElem_of_mem hMem
  exact hasSymbol_foldl (f := namePrimal) (fun x => x.1.value) grows_namePrimal
    (fun _ _ => hasSymbol_assign)
    (List.mk_mem_zipIdx_iff_getElem?.mpr (List.getElem?_eq_getElem hk)) t

/-- Derivative inputs without a formal name get no symbol here. -/
theorem nameArguments_append_seeds (t : NameTable) (arguments : List Argument)
    (seeds : List ValueId) :
    nameArguments t (arguments ++ seedArguments seeds) = nameArguments t arguments := by
  have hPrimal : (seedArguments seeds).filter (!·.derivative) = [] := by simp [seedArguments]
  have hDerivative : (seedArguments seeds).filter (·.derivative) = seedArguments seeds := by
    simp [seedArguments]
  have hSkip : ∀ t : NameTable, (seedArguments seeds).foldl nameDerivative t = t := by
    intro t
    rw [seedArguments, List.foldl_map]
    induction seeds with
    | nil => rfl
    | cons s seeds ih => exact ih (by simp [seedArguments]) (by simp [seedArguments])
  rw [nameArguments_eq, nameArguments_eq, List.filter_append, List.filter_append, hPrimal,
    hDerivative, List.append_nil, List.foldl_append, hSkip]

/-- What the loop over the bindings keeps: a symbol that was not there at the start is that of the
binding that owns the value. -/
structure Resolved (start t : NameTable) (before : List Binding) : Prop where
  grows : start.Grows t
  origin : ∀ v s, t.symbol? v = some s → start.symbol? v = some s ∨
    ∃ b ∈ t.bound, b.ownsValue = true ∧ b.value = v ∧ b.symbol = s
  owns : ∀ b ∈ t.bound, b.ownsValue = true → t.symbol? b.value = some b.symbol
  values : t.bound.map (·.value) = start.bound.map (·.value) ++ before.map (·.value)
  named : ∀ b ∈ before, t.hasSymbol b.value = true

theorem bound_nameBinding (t : NameTable) (b : Binding) :
    (nameBinding bindings t b).bound =
      t.bound ++ [⟨b.id, b.value, bindingSymbol bindings t b, !t.hasSymbol b.value⟩] := by
  show (t.assign _ _).bound ++ _ = _
  rw [bound_assign]

private theorem symbol?_nameBinding (t : NameTable) (b : Binding) :
    (nameBinding bindings t b).symbol? v =
      (t.assign b.value (bindingSymbol bindings t b)).symbol? v := rfl

theorem grows_nameBinding (t : NameTable) (b : Binding) : t.Grows (nameBinding bindings t b) :=
  fun w s hs => grows_assign w s hs

/-- One binding: it owns its value if that had no symbol. -/
private theorem Resolved.step {start : NameTable} {before : List Binding}
    (h : Resolved start t before) (b : Binding) :
    Resolved start (nameBinding bindings t b) (before ++ [b]) := by
  have hGrows : t.Grows (nameBinding bindings t b) := grows_nameBinding t b
  have hOwner : ∀ b' ∈ (nameBinding bindings t b).bound, b' ∈ t.bound ∨
      b' = ⟨b.id, b.value, bindingSymbol bindings t b, !t.hasSymbol b.value⟩ := by
    intro b' hb'
    rw [bound_nameBinding] at hb'
    simpa using hb'
  refine ⟨h.grows.trans hGrows, ?_, ?_, ?_, ?_⟩
  · -- A symbol is an old one, or the binding gives it and so owns its value.
    intro w s' hs
    rw [symbol?_nameBinding] at hs
    rcases symbol?_assign_cases hs with hOld | ⟨hNone, rfl, rfl⟩
    · obtain hStart | ⟨b', hb', hOwns, hValue, hSymbol⟩ := h.origin w s' hOld
      · exact Or.inl hStart
      · refine Or.inr ⟨b', ?_, hOwns, hValue, hSymbol⟩
        rw [bound_nameBinding]
        exact List.mem_append_left _ hb'
    · refine Or.inr ⟨⟨b.id, b.value, bindingSymbol bindings t b, !t.hasSymbol b.value⟩, ?_, ?_,
        rfl, rfl⟩
      · rw [bound_nameBinding]
        simp
      · simp [hasSymbol, hNone]
  · intro b' hb' hOwns
    rcases hOwner b' hb' with hOld | rfl
    · exact hGrows _ _ (h.owns b' hOld hOwns)
    · -- What owns its value found it without a symbol.
      have hNone : t.symbol? b.value = none := by simpa [hasSymbol] using hOwns
      rw [symbol?_nameBinding]
      exact symbol?_assign_self hNone
  · rw [bound_nameBinding, List.map_append, h.values, List.map_append, List.append_assoc]
    rfl
  · intro b' hb'
    rcases List.mem_append.mp hb' with hb' | hb'
    · exact hGrows.hasSymbol (h.named b' hb')
    · obtain rfl := List.mem_singleton.mp hb'
      exact hasSymbol_assign

private theorem resolved_foldl (start : NameTable) (hBound : start.bound = [])
    (all bindings : List Binding) :
    Resolved start (bindings.foldl (nameBinding all) start) bindings := by
  induction bindings using List.reverseRecOn with
  | nil =>
    refine ⟨Grows.refl _, fun v s h => Or.inl h, ?_, by simp, ?_⟩
    · intro b hb
      rw [List.foldl_nil, hBound] at hb
      exact absurd hb List.not_mem_nil
    · exact fun b hb => absurd hb List.not_mem_nil
  | append_singleton bindings b ih =>
    rw [List.foldl_append]
    exact ih.step b

/-- **A resolved symbol is that of an argument, or of the binding that owns the value.** Bindings
get their symbols in order, and every bound value has one. -/
structure ResolvedNames (arguments : List Argument) (bindings : List Binding) (t : NameTable) :
    Prop where
  origin : ∀ v s, t.symbol? v = some s → v ∈ arguments.map (·.value) ∨
    ∃ b ∈ t.bound, b.ownsValue = true ∧ b.value = v ∧ b.symbol = s
  owns : ∀ b ∈ t.bound, b.ownsValue = true → t.symbol? b.value = some b.symbol
  values : t.bound.map (·.value) = bindings.map (·.value)
  argument : ∀ a ∈ arguments, a.derivative = false → t.hasSymbol a.value = true
  binding : ∀ b ∈ bindings, t.hasSymbol b.value = true

theorem resolvedNames (function : String) (arguments : List Argument) (bindings : List Binding) :
    ResolvedNames arguments bindings (resolveNames function arguments bindings).1 := by
  -- At the start there are no symbols, and naming the arguments binds nothing.
  have hEmpty : ∀ w, NameTable.symbol? ⟨[], [], .plain function⟩ w = none := fun _ => rfl
  have hBound : (nameArguments ⟨[], [], .plain function⟩ arguments).bound = [] :=
    bound_nameArguments _ _
  have h := resolved_foldl (nameArguments ⟨[], [], .plain function⟩ arguments) hBound bindings
    bindings
  refine ⟨?_, h.owns, ?_, ?_, h.named⟩
  · intro v s hs
    refine (h.origin v s hs).imp_left ?_
    intro hStart
    rcases origin_of_nameArguments hStart with hNone | hMem
    · exact absurd ((hEmpty v).symm.trans hNone) (by simp)
    · exact hMem
  · have hValues := h.values
    rwa [hBound, List.map_nil, List.nil_append] at hValues
  · exact fun a ha hPrimal => h.grows.hasSymbol (hasSymbol_nameArguments ha hPrimal)

/-- The function has the name under which the names are resolved. -/
theorem function_resolveNames (function : String) (arguments : List Argument)
    (bindings : List Binding) :
    (resolveNames function arguments bindings).1.function = .plain function := by
  rw [resolveNames, keeps_foldl NameTable.function,
    keeps_nameArguments NameTable.function fun _ _ _ => function_assign]
  exact fun t b => function_assign

/-- The seeds of a derivative do not change what is resolved. -/
theorem resolveNames_append_seeds (function : String) (arguments : List Argument)
    (seeds : List ValueId) (bindings : List Binding) :
    resolveNames function (arguments ++ seedArguments seeds) bindings =
      resolveNames function arguments bindings := by
  rw [resolveNames, resolveNames, nameArguments_append_seeds]

end Resolve

/-! ## Tags -/

section Tags

variable {trace : Trace} {t : Threading} {closure : List ValueId} {names : NameTable}
  {tag : DerivativeTag} {v : ValueId} {s : Symbol}

/-- The table after one tag. -/
def nameTag (trace : Trace) (t : Threading) (closure : List ValueId) (names : NameTable)
    (tag : DerivativeTag) : NameTable :=
  match tagSymbol? trace t closure names tag with
  | some symbol => names.assign tag.value symbol
  | none => names

theorem nameTags_eq : nameTags trace t closure names =
    trace.tags.foldl (nameTag trace t closure) names := rfl

theorem grows_nameTag (names : NameTable) (tag : DerivativeTag) :
    names.Grows (nameTag trace t closure names tag) := by
  unfold nameTag
  split
  · exact grows_assign
  · exact Grows.refl names

theorem bound_nameTag (names : NameTable) (tag : DerivativeTag) :
    (nameTag trace t closure names tag).bound = names.bound := by
  unfold nameTag
  split
  · exact bound_assign
  · rfl

/-- A tag only gives a symbol to its own value. -/
theorem origin_of_nameTag (hNone : names.symbol? v = none)
    (h : (nameTag trace t closure names tag).symbol? v = some s) :
    tag.value = v ∧ tagSymbol? trace t closure names tag = some s := by
  unfold nameTag at h
  split at h
  · rename_i symbol hSymbol
    rcases symbol?_assign_cases h with hOld | ⟨-, rfl, rfl⟩
    · exact absurd (hNone.symm.trans hOld) (by simp)
    · exact ⟨rfl, hSymbol⟩
  · exact absurd (hNone.symm.trans h) (by simp)

/-- A tag gives its symbol to a value that has none. -/
theorem symbol?_nameTag (hNone : names.symbol? tag.value = none)
    (h : tagSymbol? trace t closure names tag = some s) :
    (nameTag trace t closure names tag).symbol? tag.value = some s := by
  rw [nameTag, h]
  exact symbol?_assign_self hNone

/-- What a tag that gives a symbol is like: its value is no constant and has no symbol, and it is
an input or no value of the primal computation. The symbol is that of the primal, prefixed. -/
theorem tagSymbol?_eq_some (h : tagSymbol? trace t closure names tag = some s) :
    trace.graph.literal? tag.value = none ∧ names.symbol? tag.value = none ∧
      (trace.graph.isLeaf tag.value = true ∨ tag.value ∉ closure) ∧
      ∃ base, (if isSeedTag trace.graph tag then
          (t.functionSymbol? tag.primal).or (names.symbol? tag.primal)
        else t.primalSymbol? names tag.primal) = some base ∧
        s = base.prefixed (t.prefixOf tag.kind) := by
  unfold tagSymbol? at h
  simp only at h
  split at h
  · exact absurd h (by simp)
  · rename_i hFree
    -- Constants and named values are passed over; so are values of the primal computation
    -- that are no inputs.
    split at h
    · exact absurd h (by simp)
    · rename_i hOpen
      obtain ⟨base, hBase, rfl⟩ := Option.map_eq_some_iff.mp h
      obtain ⟨hLiteral, hSymbol⟩ : trace.graph.literal? tag.value = none ∧
          names.symbol? tag.value = none := by simpa [hasSymbol] using hFree
      refine ⟨hLiteral, hSymbol, ?_, base, hBase, rfl⟩
      · by_cases hLeaf : trace.graph.isLeaf tag.value = true
        · exact Or.inl hLeaf
        · exact Or.inr fun hMem => hOpen (by simp [hLeaf, hMem])

/-- **A symbol after the tags was there, or a tag gave it**, which stands behind only tags that do
not name the value. -/
theorem origin_of_nameTags (h : (nameTags trace t closure names).symbol? v = some s) :
    names.symbol? v = some s ∨ ∃ before tag after, trace.tags = before ++ tag :: after ∧
      tag.value = v ∧
      tagSymbol? trace t closure (before.foldl (nameTag trace t closure) names) tag = some s := by
  rw [nameTags_eq] at h
  rcases origin_of_foldl grows_nameTag h with hStart | ⟨before, tag, after, hSplit, hNone, h⟩
  · exact Or.inl hStart
  · obtain ⟨hValue, hSymbol⟩ := origin_of_nameTag hNone h
    exact Or.inr ⟨before, tag, after, hSplit, hValue, hSymbol⟩

/-- A value that none of the tags is about gets no symbol from them. -/
theorem symbol?_foldl_nameTag {tags : List DerivativeTag} (hOther : ∀ t ∈ tags, t.value ≠ v)
    (hNone : names.symbol? v = none) :
    (tags.foldl (nameTag trace t closure) names).symbol? v = none := by
  by_contra hSome
  obtain ⟨s, hs⟩ := Option.ne_none_iff_exists'.mp hSome
  rcases origin_of_foldl grows_nameTag hs with hStart | ⟨before, tag, after, rfl, hBefore, h⟩
  · exact absurd (hNone.symm.trans hStart) (by simp)
  · exact hOther tag (by simp) (origin_of_nameTag hBefore h).1

end Tags

/-! ## Placeholders -/

section Leftovers

variable {arguments : List Argument} {names : NameTable} {v : ValueId} {s : Symbol}

private def nameLeftover (names : NameTable) (x : Argument × Nat) : NameTable :=
  names.assign x.1.value (.plain (placeholder x.2))

private theorem nameLeftovers_eq : nameLeftovers arguments names =
    arguments.zipIdx.foldl nameLeftover names := rfl

theorem grows_nameLeftovers : names.Grows (nameLeftovers arguments names) :=
  grows_foldl (fun _ _ => grows_assign) _ _

theorem bound_nameLeftovers : (nameLeftovers arguments names).bound = names.bound :=
  keeps_foldl NameTable.bound (fun _ _ => bound_assign) _ _

/-- Every argument has a symbol in the end. -/
theorem hasSymbol_nameLeftovers {a : Argument} (ha : a ∈ arguments) :
    (nameLeftovers arguments names).hasSymbol a.value = true := by
  obtain ⟨k, hk, rfl⟩ := List.getElem_of_mem ha
  exact hasSymbol_foldl (f := nameLeftover) (fun x => x.1.value) (fun _ _ => grows_assign)
    (fun _ _ => hasSymbol_assign)
    (List.mk_mem_zipIdx_iff_getElem?.mpr (List.getElem?_eq_getElem hk)) names

theorem origin_of_nameLeftovers (h : (nameLeftovers arguments names).symbol? v = some s) :
    names.symbol? v = some s ∨ v ∈ arguments.map (·.value) := by
  rw [nameLeftovers_eq] at h
  rcases origin_of_foldl (f := nameLeftover) (fun _ _ => grows_assign) h with
    hStart | ⟨before, ⟨a, k⟩, after, hSplit, hNone, h⟩
  · exact Or.inl hStart
  · obtain hOld | ⟨-, rfl, -⟩ := symbol?_assign_cases h
    · exact absurd (hNone.symm.trans hOld) (by simp)
    · have hMem : (a, k) ∈ arguments.zipIdx := by simp [hSplit]
      exact Or.inr (List.mem_map.mpr
        ⟨a, List.mem_of_getElem? (List.mk_mem_zipIdx_iff_getElem?.mp hMem), rfl⟩)

end Leftovers

/-! ## Runs -/

namespace Trace

variable {t : Trace} {options : Options}

/-- The symbols of the arguments and bindings of a trace. -/
def table (t : Trace) (options : Options) : NameTable :=
  (resolveNames (options.functionName.getD t.name) t.arguments t.bindings).1

/-- The symbols of a trace, and what its tags say about its equations. -/
def threaded (t : Trace) (options : Options) : NameTable × Threading :=
  thread t (t.table options) options

/-- What labels the outputs of a trace, as its tags are read. -/
def roles (t : Trace) (options : Options) : Threading :=
  ⟨[], functionPrimals t, (t.table options).function, options.tangentPrefix,
    options.cotangentPrefix⟩

/-- The symbols of a trace once its tags are read. -/
def tagged (t : Trace) (options : Options) : NameTable :=
  nameTags t (t.roles options) (primalClosure t (t.table options)) (t.table options)

theorem threaded_snd : (t.threaded options).2 =
    { t.roles options with
      derivatives := derivativeEquations t (t.roles options) (t.threaded options).1 } := rfl

theorem resolvedNames_table (t : Trace) (options : Options) :
    ResolvedNames t.arguments t.bindings (t.table options) := resolvedNames _ _ _

/-- Going on with a trace does not change the symbols of its arguments and bindings. -/
theorem table_eq_of_seeds {d : Trace} {seeds : List ValueId} (hName : d.name = t.name)
    (hArguments : d.arguments = t.arguments ++ seedArguments seeds)
    (hBindings : d.bindings = t.bindings) : d.table options = t.table options := by
  rw [table, table, hName, hArguments, hBindings, resolveNames_append_seeds]

theorem grows_tagged : (t.table options).Grows (t.tagged options) := grows_foldl grows_nameTag _ _

theorem grows_threaded : (t.table options).Grows (t.threaded options).1 :=
  grows_tagged.trans grows_nameLeftovers

theorem bound_threaded : (t.threaded options).1.bound = (t.table options).bound :=
  bound_nameLeftovers.trans (keeps_foldl NameTable.bound bound_nameTag _ _)

/-- The run up to the equations: the symbols are there, and the program is if it can be built. -/
private theorem run_build (t : Trace) (options : Options) :
    (t.run options .build).state.names = some (t.threaded options).1 ∧
      (t.run options .build).state.program =
        (buildProgram t (t.threaded options).1 (t.threaded options).2 options).toOption := by
  have hRun : t.run options .build = (t.run options .thread).next .build := rfl
  have hNames : (t.run options .thread).state.names = some (t.threaded options).1 := rfl
  have hThreading : (t.run options .thread).state.threading = some (t.threaded options).2 := rfl
  have hTrace : (t.run options .thread).state.trace = t := rfl
  have hOptions : (t.run options .thread).state.options = options := rfl
  have hProgram : (t.run options .thread).state.program = none := rfl
  have hFailure : (t.run options .thread).failure = none := rfl
  rw [hRun, Run.next, hFailure]
  simp only [Transcription.runPass, hNames, hThreading, hTrace, hOptions]
  cases buildProgram t (t.threaded options).1 (t.threaded options).2 options with
  | ok program => exact ⟨hNames, rfl⟩
  | error e => exact ⟨hNames, hProgram⟩

/-- The run to the equations has the symbols of the trace. -/
theorem names_run (t : Trace) (options : Options) :
    (t.run options .build).state.names = some (t.threaded options).1 :=
  (run_build t options).1

/-- The run to the equations ends with the program, if that can be built. -/
theorem program_run {program : Program}
    (h : (t.run options .build).state.program = some program) :
    buildProgram t (t.threaded options).1 (t.threaded options).2 options = .ok program := by
  rw [(run_build t options).2] at h
  cases hBuild : buildProgram t (t.threaded options).1 (t.threaded options).2 options with
  | ok program' =>
    rw [hBuild] at h
    exact congrArg _ (Option.some.inj h)
  | error e =>
    rw [hBuild] at h
    exact absurd h (by simp [Except.toOption])

end Trace

end ArrayEquations
