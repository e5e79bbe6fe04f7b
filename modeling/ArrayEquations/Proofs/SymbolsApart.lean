import ArrayEquations.Proofs.SymbolTables
import ArrayEquations.Trace.Binder

/-!
# ArrayEquations — bindings that are told apart

Bindings of one name are told apart by the values that they depend on, but they are written with
the names of those values. So they look different if the names do: then either no two symbols of a
name are equal, or a warning speaks of all its bindings.

Inputs with different names are no concern, for the symbol of an input stays. A value with a
binding of its own is shown by the bare name of that binding, however. Bindings that are themselves
told apart by what they depend on then look alike behind another symbol.

## Main definitions

* `inputNames` — the inputs that have names, with these names.
* `tableBefore` — the symbols that a binding finds.

## Main results

* `bound_resolveNames` — what becomes of each binding.
* `dependencySet_ne` — bindings that are told apart depend on different sets of values.
* `symbols_apart` — equal symbols of a name come with a warning, as far as names tell values apart.
* `symbols_alike_behind_name` — bound values that only their own dependencies tell apart.
-/

namespace ArrayEquations

open NameTable

/-! ## The names of inputs -/

/-- The inputs that have names, with these names: those of the function itself, under their formal
names or placeholders, and the derivative inputs that have a formal name. -/
def inputNames (arguments : List Argument) : List (ValueId × String) :=
  (arguments.filter (!·.derivative)).zipIdx.map
      (fun x => (x.1.value, x.1.name.getD (placeholder x.2))) ++
    (arguments.filter (·.derivative)).filterMap fun a => a.name.map (a.value, ·)

/-- The table with one more input. -/
private def nameInput (t : NameTable) (x : ValueId × String) : NameTable :=
  t.assign x.1 (.plain x.2)

private theorem nameArguments_eq_foldl (t : NameTable) (arguments : List Argument) :
    nameArguments t arguments = (inputNames arguments).foldl nameInput t := by
  rw [inputNames, List.foldl_append, List.foldl_map, List.foldl_filterMap]
  show List.foldl _ _ _ = List.foldl _ _ _
  congr 1
  funext t a
  cases a.name <;> rfl

private theorem symbol?_foldl_nameInput (inputs : List (ValueId × String)) (t : NameTable)
    (v : ValueId) : (inputs.foldl nameInput t).symbol? v =
      (t.symbol? v).or ((inputs.lookup v).map .plain) := by
  induction inputs generalizing t with
  | nil => simp
  | cons x inputs ih =>
    obtain ⟨w, name⟩ := x
    rw [List.foldl_cons, ih, nameInput, List.lookup_cons]
    by_cases hEq : v = w
    · subst hEq
      rw [beq_self_eq_true]
      cases hSymbol : t.symbol? v with
      | none => rw [symbol?_assign_self hSymbol]; rfl
      | some s => rw [assign_of_some hSymbol, hSymbol]; rfl
    · rw [symbol?_assign_of_ne hEq, beq_false_of_ne hEq]

/-- The symbol of an input is its name, and nothing else has a symbol yet. -/
theorem symbol?_nameArguments (function : String) (arguments : List Argument) (v : ValueId) :
    (nameArguments ⟨[], [], .plain function⟩ arguments).symbol? v =
      ((inputNames arguments).lookup v).map .plain := by
  rw [nameArguments_eq_foldl, symbol?_foldl_nameInput]
  rfl

/-! ## The symbols of bindings -/

/-- The symbols that the binding at a position finds: those of the inputs and of the bindings
before it. -/
def tableBefore (function : String) (arguments : List Argument) (bindings : List Binding)
    (position : Nat) : NameTable :=
  (bindings.take position).foldl (nameBinding bindings)
    (nameArguments ⟨[], [], .plain function⟩ arguments)

variable {function : String} {arguments : List Argument} {bindings : List Binding}

private theorem prefix_bound_foldl (all bs : List Binding) (t : NameTable) :
    t.bound <+: (bs.foldl (nameBinding all) t).bound := by
  induction bs generalizing t with
  | nil => exact List.prefix_rfl
  | cons b bs ih =>
    rw [List.foldl_cons]
    refine List.IsPrefix.trans ?_ (ih _)
    rw [bound_nameBinding]
    exact List.prefix_append _ _

private theorem length_bound_foldl (all bs : List Binding) (t : NameTable) :
    (bs.foldl (nameBinding all) t).bound.length = t.bound.length + bs.length := by
  induction bs generalizing t with
  | nil => rfl
  | cons b bs ih =>
    rw [List.foldl_cons, ih, bound_nameBinding, List.length_append, List.length_cons]
    simp only [List.length_nil, List.length_cons]
    omega

/-- **What becomes of each binding**: its symbol is made from the symbols that it finds. -/
theorem bound_resolveNames {k : Nat} {b : Binding} (hb : bindings[k]? = some b) :
    (resolveNames function arguments bindings).1.bound[k]? =
      some ⟨b.id, b.value,
        bindingSymbol bindings (tableBefore function arguments bindings k) b,
        !(tableBefore function arguments bindings k).hasSymbol b.value⟩ := by
  obtain ⟨hk, rfl⟩ := List.getElem?_eq_some_iff.mp hb
  have hLength : (tableBefore function arguments bindings k).bound.length = k := by
    rw [tableBefore, length_bound_foldl, bound_nameArguments, List.length_nil, Nat.zero_add,
      List.length_take, Nat.min_eq_left hk.le]
  -- Bindings after this one only add to the list.
  have hTable : (resolveNames function arguments bindings).1 =
      (bindings.drop (k + 1)).foldl (nameBinding bindings)
        (nameBinding bindings (tableBefore function arguments bindings k) bindings[k]) := by
    rw [tableBefore, ← List.foldl_cons, ← List.drop_eq_getElem_cons hk, ← List.foldl_append,
      List.take_append_drop]
    rfl
  have hPrefix := prefix_bound_foldl bindings (bindings.drop (k + 1))
    (nameBinding bindings (tableBefore function arguments bindings k) bindings[k])
  rw [← hTable, bound_nameBinding] at hPrefix
  obtain ⟨after, hAfter⟩ := hPrefix
  rw [← hAfter, List.append_assoc, List.getElem?_append_right hLength.le, hLength, Nat.sub_self]
  rfl

/-- An input with a name is shown under this name wherever it is depended on. -/
theorem exists_name_of_input (function : String) (bindings : List Binding) {v : ValueId}
    (hv : v ∈ (inputNames arguments).map (·.1)) : ∃ name, (v, name) ∈ inputNames arguments ∧
      ∀ k, dependencyName (tableBefore function arguments bindings k) v = name := by
  cases hLookup : (inputNames arguments).lookup v with
  | none =>
    obtain ⟨x, hx, rfl⟩ := List.mem_map.mp hv
    have hOther := List.lookup_eq_none_iff.mp hLookup x hx
    exact absurd hOther (by simp)
  | some name =>
    obtain ⟨before, after, hSplit, -⟩ := List.lookup_eq_some_iff.mp hLookup
    refine ⟨name, by rw [hSplit]; simp, ?_⟩
    intro k
    have hSymbol := symbol?_nameArguments function arguments v
    rw [hLookup] at hSymbol
    have hGrows : (nameArguments ⟨[], [], .plain function⟩ arguments).Grows
        (tableBefore function arguments bindings k) := grows_foldl grows_nameBinding _ _
    rw [dependencyName, hGrows v _ hSymbol]
    rfl

/-! ## Bindings of one name -/

/-- What holds of the bindings of a name two by two holds of any two of them. -/
private theorem of_pairwise_members {name : String} {P : Binding → Binding → Prop}
    (hSymm : ∀ b c, P b c → P c b) (h : (membersOf bindings name).Pairwise P) {i j : Nat}
    (hDiffer : i ≠ j) {b c : Binding} (hb : bindings[i]? = some b) (hc : bindings[j]? = some c)
    (hbName : b.name = name) (hcName : c.name = name) : P b c := by
  rw [membersOf, List.pairwise_filter, List.pairwise_iff_getElem] at h
  obtain ⟨hi, rfl⟩ := List.getElem?_eq_some_iff.mp hb
  obtain ⟨hj, rfl⟩ := List.getElem?_eq_some_iff.mp hc
  rcases Nat.lt_or_gt_of_ne hDiffer with hLt | hLt
  · exact h i j hi hj hLt (by simpa using hbName) (by simpa using hcName)
  · exact hSymm _ _ (h j i hj hi hLt (by simpa using hcName) (by simpa using hbName))

/-- A list that loses nothing when repetitions are taken out has none. -/
private theorem nodup_of_length_eraseDups {α : Type*} [BEq α] [LawfulBEq α] {as : List α}
    (h : as.eraseDups.length = as.length) : as.Nodup := by
  have hSubperm := List.subperm_of_subset (nodup_eraseDups as) fun a => List.mem_eraseDups.mp
  exact (hSubperm.perm_of_length_le h.ge).nodup (nodup_eraseDups as)

/-- Bindings that are told apart depend on different sets of values. -/
theorem dependencySet_ne {name : String} (hApart : areDistinguishable (membersOf bindings name))
    {i j : Nat} (hDiffer : i ≠ j) {b c : Binding} (hb : bindings[i]? = some b)
    (hc : bindings[j]? = some c) (hbName : b.name = name) (hcName : c.name = name) :
    dependencySet (b.dependsOn.getD []) ≠ dependencySet (c.dependsOn.getD []) := by
  obtain ⟨-, hLength⟩ := Bool.and_eq_true_iff.mp hApart
  have hNodup := nodup_of_length_eraseDups (beq_iff_eq.mp hLength)
  exact of_pairwise_members (P := fun b c =>
    dependencySet (b.dependsOn.getD []) ≠ dependencySet (c.dependsOn.getD []))
    (fun _ _ h => h.symm) (List.pairwise_map.mp hNodup) hDiffer hb hc hbName hcName

/-- Two bindings of a name that are not told apart come with a warning about both. -/
theorem exists_ambiguityWarning {name : String}
    (hNot : ¬ areDistinguishable (membersOf bindings name) = true) {i j : Nat}
    (hDiffer : i ≠ j) {b c : Binding} (hb : bindings[i]? = some b) (hc : bindings[j]? = some c)
    (hbName : b.name = name) (hcName : c.name = name) :
    ∃ w ∈ (resolveNames function arguments bindings).2, w.code = some .ambiguousName ∧
      b.value ∈ w.values ∧ c.value ∈ w.values := by
  have hMember : ∀ {k : Nat} {b : Binding}, bindings[k]? = some b → b.name = name →
      b ∈ membersOf bindings name := by
    intro k b hb hName
    exact List.mem_filter.mpr ⟨List.mem_of_getElem? hb, by simpa using hName⟩
  -- There are at least two bindings of the name, so that it is one to warn of.
  have hSeveral : ¬ (membersOf bindings name).length ≤ 1 := by
    intro hLe
    apply of_pairwise_members (P := fun _ _ => False) (fun _ _ h => h) ?_ hDiffer hb hc hbName
      hcName
    rw [List.pairwise_iff_getElem]
    intro k l hk hl hLt
    omega
  have hWarning : ambiguityWarning? bindings name = some _ := if_neg (by simp [hSeveral, hNot])
  refine ⟨_, List.mem_filterMap.mpr ⟨name, ?_, hWarning⟩, rfl,
    List.mem_map_of_mem (hMember hb hbName), List.mem_map_of_mem (hMember hc hcName)⟩
  exact List.mem_eraseDups.mpr (List.mem_map.mpr ⟨b, List.mem_of_getElem? hb, hbName⟩)

private theorem eq_of_map_eq {α β : Type*} {f g : α → β} {as bs : List α}
    (hApart : ∀ a ∈ as, ∀ b ∈ bs, f a = g b → a = b) (h : as.map f = bs.map g) : as = bs := by
  induction as generalizing bs with
  | nil => exact (List.map_eq_nil_iff.mp h.symm).symm
  | cons a as ih =>
    cases bs with
    | nil => exact absurd h (by simp)
    | cons b bs =>
      obtain ⟨hFirst, hRest⟩ := List.cons.inj h
      rw [hApart a List.mem_cons_self b List.mem_cons_self hFirst,
        ih (fun a ha b hb => hApart a (List.mem_cons_of_mem _ ha) b (List.mem_cons_of_mem _ hb))
          hRest]

/-- **Bindings of a name that get equal symbols come with a warning about both**, if the names of
inputs differ and the names under which the two show other values tell these apart. -/
theorem symbols_apart (function : String) (arguments : List Argument) (bindings : List Binding)
    (hNames : ((inputNames arguments).map (·.2)).Nodup) {i j : Nat} (hDiffer : i ≠ j)
    {b c : Binding} (hb : bindings[i]? = some b) (hc : bindings[j]? = some c)
    (hName : b.name = c.name)
    (hTold : ∀ d ∈ b.dependsOn.getD [], ∀ e ∈ c.dependsOn.getD [],
      ¬ (d ∈ (inputNames arguments).map (·.1) ∧ e ∈ (inputNames arguments).map (·.1)) →
      dependencyName (tableBefore function arguments bindings i) d =
        dependencyName (tableBefore function arguments bindings j) e → d = e) :
    ∃ p q, (resolveNames function arguments bindings).1.bound[i]? = some p ∧ p.value = b.value ∧
      (resolveNames function arguments bindings).1.bound[j]? = some q ∧ q.value = c.value ∧
      (p.symbol = q.symbol → ∃ w ∈ (resolveNames function arguments bindings).2,
        w.code = some .ambiguousName ∧ b.value ∈ w.values ∧ c.value ∈ w.values) := by
  refine ⟨_, _, bound_resolveNames hb, rfl, bound_resolveNames hc, rfl, ?_⟩
  intro hSymbols
  by_cases hApart : areDistinguishable (membersOf bindings b.name) = true
  · -- The two are written with their dependencies, and equal names stand for equal values.
    simp only [bindingSymbol, ← hName, if_pos hApart] at hSymbols
    have hDependencies : b.dependsOn.getD [] = c.dependsOn.getD [] := by
      refine eq_of_map_eq ?_ (congrArg Symbol.dependencies hSymbols)
      intro d hd e he hShown
      -- Inputs are shown under their names everywhere, other values under those they have so far.
      by_cases hInputs : d ∈ (inputNames arguments).map (·.1) ∧
          e ∈ (inputNames arguments).map (·.1)
      · obtain ⟨n, hn, hdName⟩ := exists_name_of_input function bindings hInputs.1
        obtain ⟨m, hm, heName⟩ := exists_name_of_input function bindings hInputs.2
        rw [hdName, heName] at hShown
        exact congrArg Prod.fst (List.inj_on_of_nodup_map hNames hn hm hShown)
      · exact hTold d hd e he hInputs hShown
    exact absurd (congrArg dependencySet hDependencies)
      (dependencySet_ne hApart hDiffer hb hc rfl hName.symm)
  · -- Bindings of a name that are not told apart are warned of, whatever their symbols are.
    exact exists_ambiguityWarning hApart hDiffer hb hc rfl hName.symm

/-- Two bindings that depend on the same bound value are written as their bare name, with a
warning about both. -/
theorem symbols_apart_repeated :
    ((resolveNames "f" [⟨0, some "x", false⟩]
        [⟨0, "z", 1, some [0]⟩, ⟨1, "w", 2, some [1]⟩, ⟨2, "w", 3, some [1]⟩]).1.bound.map
      (·.symbol)) = [⟨"z", ["x"]⟩, .plain "w", .plain "w"] ∧
    ∃ w ∈ (resolveNames "f" [⟨0, some "x", false⟩]
        [⟨0, "z", 1, some [0]⟩, ⟨1, "w", 2, some [1]⟩, ⟨2, "w", 3, some [1]⟩]).2,
      w.code = some .ambiguousName ∧ 2 ∈ w.values ∧ 3 ∈ w.values := by
  have hSymbols : ((resolveNames "f" [⟨0, some "x", false⟩]
      [⟨0, "z", 1, some [0]⟩, ⟨1, "w", 2, some [1]⟩, ⟨2, "w", 3, some [1]⟩]).1.bound.map
      (·.symbol)) = [⟨"z", ["x"]⟩, .plain "w", .plain "w"] := by decide +kernel
  obtain ⟨p, q, hp, -, hq, -, hWarning⟩ := symbols_apart "f" [⟨0, some "x", false⟩]
    [⟨0, "z", 1, some [0]⟩, ⟨1, "w", 2, some [1]⟩, ⟨2, "w", 3, some [1]⟩]
    (by decide) (i := 1) (j := 2) (by decide) rfl rfl rfl (by decide +kernel)
  have hFirst := congrArg (Option.map (·.symbol)) hp
  have hSecond := congrArg (Option.map (·.symbol)) hq
  rw [← List.getElem?_map, hSymbols] at hFirst hSecond
  exact ⟨hSymbols, hWarning (Option.some.inj (hFirst.symm.trans hSecond))⟩

/-- The values of a function of two numbers, of which four have names. -/
def layeredBindings : List Binding :=
  [⟨0, "z", 2, some [0]⟩, ⟨1, "z", 3, some [1]⟩, ⟨2, "w", 4, some [2]⟩, ⟨3, "w", 5, some [3]⟩]

/-- **Bound values that only their own dependencies tell apart look alike behind another
symbol.** The first two bindings are `z(x)` and `z(y)`. The other two depend on them, and both are
`w(z)`, without a warning. -/
theorem symbols_alike_behind_name :
    replayBindings ⟨#[⟨.leaf, []⟩, ⟨.leaf, []⟩, ⟨.op .neg [0], []⟩, ⟨.op .neg [1], []⟩,
        ⟨.op .neg [2], []⟩, ⟨.op .neg [3], []⟩]⟩ layeredBindings = .ok layeredBindings ∧
      ((resolveNames "f" [⟨0, some "x", false⟩, ⟨1, some "y", false⟩] layeredBindings).1.bound.map
        (·.symbol)) = [⟨"z", ["x"]⟩, ⟨"z", ["y"]⟩, ⟨"w", ["z"]⟩, ⟨"w", ["z"]⟩] ∧
      (resolveNames "f" [⟨0, some "x", false⟩, ⟨1, some "y", false⟩] layeredBindings).2 = [] := by
  refine ⟨by decide, by decide +kernel, by decide +kernel⟩

end ArrayEquations
