import ArrayEquations.Proofs.ImportedTrace
import ArrayEquations.Proofs.PrimalSymbols

/-!
# ArrayEquations — the extent of the primal computation

The primal computation consists of the primals of the tags, the targets of the bindings and the
operands on the way to these. One sweep down the graph collects it. A search from the roots with a
table of marks and a stack finds the same values: what is marked was reached from a root, and what
is reached from a root is marked or has a value before it on the stack, so once the stack is empty
nothing is missing. A value can be on the stack several times, but its operands are put there only
once. So each round of the search uses up one entry of the stack or one operand of a value that
is not marked, and there are finitely many of these.

## Main definitions

* `Trace.IsPrimal` — a value of the primal computation.
* `Marking` — a search in progress, and `Marking.run`, its rounds up to an empty stack.
* `Marking.Searches` — what holds in every round; `Marking.pending` — how many rounds are left.

## Main results

* `Marking.run_searches` — a search ends with the values that its roots lead back to.
* `Trace.mem_primalClosure_iff` — the sweep collects the same values.
* `Trace.primal_computation_exact` — both find the primal computation of an imported trace, whose
  values keep their own form.
-/

namespace ArrayEquations

/-! ## Values that roots lead back to -/

namespace Graph

variable {g : Graph} {roots : List ValueId} {v w : ValueId}

/-- Operands come before the operations that use them, so what roots lead back to is there. -/
theorem LeadsTo.lt_size (hOrdered : g.Ordered) (hRoots : ∀ r ∈ roots, r < g.size)
    (h : g.LeadsTo roots v) : v < g.size := by
  induction h with
  | output hRoot => exact hRoots _ hRoot
  | operand _ hw ih => exact Nat.lt_trans (hOrdered _ _ hw) ih

end Graph

/-- A value of the primal computation: the primal of a tag, the target of a binding, or an operand
on the way to one of these. -/
def Trace.IsPrimal (t : Trace) (v : ValueId) : Prop :=
  t.graph.LeadsTo (t.tags.map (·.primal) ++ t.bindings.map (·.value)) v

/-! ## Searching with a stack -/

/-- A search for the values that roots lead back to. -/
structure Marking where
  /-- The table of marks, with a slot for each value. -/
  marks : Array Bool
  /-- The values still to be visited, the next one first. -/
  stack : List ValueId

namespace Marking

/-- Whether a value is marked. -/
def Marked (m : Marking) (v : ValueId) : Prop := m.marks[v]? = some true

/-- The search before its first round: nothing is marked, and the last root is on top. -/
def start (g : Graph) (roots : List ValueId) : Marking :=
  ⟨Array.replicate g.size false, roots.reverse⟩

/-- One round: a value that was taken from the stack is passed over if it is marked. Otherwise it
is marked, and its operands are put on the stack in order. There is no result if the value has no
slot in the table, or is no value of the graph. -/
def visit (g : Graph) (marks : Array Bool) (v : ValueId) (rest : List ValueId) :
    Option Marking := do
  if ← marks[v]? then return ⟨marks, rest⟩
  else
    let value ← g.get? v
    return ⟨marks.set! v true, value.operands.reverse ++ rest⟩

/-- The marks once the stack is empty. There are none if an access fails, or if the stack is not
empty after the rounds given. -/
def run (g : Graph) : Nat → Marking → Option (Array Bool)
  | _, ⟨marks, []⟩ => some marks
  | 0, ⟨_, _ :: _⟩ => none
  | rounds + 1, ⟨marks, v :: rest⟩ => (visit g marks v rest).bind (run g rounds)

/-- The values without a mark. -/
def unmarked (g : Graph) (marks : Array Bool) : Finset ValueId :=
  (Finset.range g.size).filter fun v => marks[v]? = some false

/-- An upper bound for the rounds that are left: an entry of the stack takes one, and so does each
operand of a value that is not marked yet. -/
def pending (g : Graph) (m : Marking) : Nat :=
  m.stack.length + ∑ v ∈ unmarked g m.marks, (g.operands v).length

/-- What holds in every round of a search. -/
structure Searches (g : Graph) (roots : List ValueId) (m : Marking) : Prop where
  size_eq : m.marks.size = g.size
  leads_of_stack : ∀ v ∈ m.stack, g.LeadsTo roots v
  leads_of_marked : ∀ v, m.Marked v → g.LeadsTo roots v
  root : ∀ r ∈ roots, m.Marked r ∨ r ∈ m.stack
  operand : ∀ v, m.Marked v → ∀ w ∈ g.operands v, m.Marked w ∨ w ∈ m.stack

variable {g : Graph} {roots rest : List ValueId} {marks : Array Bool} {v w : ValueId}

theorem marked_set (hv : v < marks.size) (stack : List ValueId) :
    Marked ⟨marks.set! v true, stack⟩ w ↔ w = v ∨ Marked ⟨marks, stack⟩ w := by
  unfold Marked
  by_cases hw : w = v
  · subst hw
    simp [hv]
  · simp [hw, Ne.symm hw]

theorem mem_unmarked : v ∈ unmarked g marks ↔ v < g.size ∧ marks[v]? = some false := by
  rw [unmarked, Finset.mem_filter, Finset.mem_range]

theorem unmarked_set (hv : v < marks.size) :
    unmarked g (marks.set! v true) = (unmarked g marks).erase v := by
  ext w
  rw [Finset.mem_erase, mem_unmarked, mem_unmarked]
  by_cases hw : w = v
  · subst hw
    simp [hv]
  · simp [hw, Ne.symm hw]

theorem searches_start (g : Graph) (roots : List ValueId) : Searches g roots (start g roots) := by
  have hNone : ∀ v, ¬ (start g roots).Marked v := by
    intro v hv
    have hSome : (Array.replicate g.size false)[v]? = some true := hv
    simp [Array.getElem?_replicate] at hSome
  refine ⟨Array.size_replicate, ?_, ?_, ?_, ?_⟩
  · exact fun v hv => .output (List.mem_reverse.mp hv)
  · exact fun v hv => absurd hv (hNone v)
  · exact fun r hr => Or.inr (List.mem_reverse.mpr hr)
  · exact fun v hv => absurd hv (hNone v)

theorem pending_start (g : Graph) (roots : List ValueId) :
    (start g roots).pending g =
      roots.length + ∑ v ∈ Finset.range g.size, (g.operands v).length := by
  have hAll : unmarked g (start g roots).marks = Finset.range g.size := by
    apply Finset.filter_true_of_mem
    intro v hv
    simp [start, Finset.mem_range.mp hv]
  rw [pending, hAll, start, List.length_reverse]

/-- A marked value on top of the stack is not needed there. -/
theorem Searches.skip (h : Searches g roots ⟨marks, v :: rest⟩) (hv : Marked ⟨marks, rest⟩ v) :
    Searches g roots ⟨marks, rest⟩ := by
  -- What was found on top of the stack is found among the marks.
  have hFound : ∀ {w}, Marked ⟨marks, v :: rest⟩ w ∨ w ∈ v :: rest →
      Marked ⟨marks, rest⟩ w ∨ w ∈ rest := by
    rintro w (hw | hw)
    · exact Or.inl hw
    · rcases List.mem_cons.mp hw with rfl | hw
      · exact Or.inl hv
      · exact Or.inr hw
  exact ⟨h.size_eq, fun w hw => h.leads_of_stack w (List.mem_cons_of_mem v hw), h.leads_of_marked,
    fun r hr => hFound (h.root r hr), fun u hu w hw => hFound (h.operand u hu w hw)⟩

/-- A value is marked when its operands are put on the stack. -/
theorem Searches.mark (h : Searches g roots ⟨marks, v :: rest⟩) (hv : v < g.size) :
    Searches g roots ⟨marks.set! v true, (g.operands v).reverse ++ rest⟩ := by
  have hLeads : g.LeadsTo roots v := h.leads_of_stack v List.mem_cons_self
  have hMarked : ∀ {w stack},
      Marked ⟨marks.set! v true, stack⟩ w ↔ w = v ∨ Marked ⟨marks, stack⟩ w :=
    marked_set (h.size_eq ▸ hv) _
  -- Nothing that was marked or waiting is lost; the value itself changes from waiting to marked.
  have hFound : ∀ {w}, Marked ⟨marks, v :: rest⟩ w ∨ w ∈ v :: rest →
      Marked ⟨marks.set! v true, (g.operands v).reverse ++ rest⟩ w ∨
        w ∈ (g.operands v).reverse ++ rest := by
    rintro w (hw | hw)
    · exact Or.inl (hMarked.mpr (Or.inr hw))
    · rcases List.mem_cons.mp hw with rfl | hw
      · exact Or.inl (hMarked.mpr (Or.inl rfl))
      · exact Or.inr (List.mem_append_right _ hw)
  refine ⟨by simpa using h.size_eq, ?_, ?_, fun r hr => hFound (h.root r hr), ?_⟩
  · intro w hw
    rcases List.mem_append.mp hw with hw | hw
    · exact .operand hLeads (List.mem_reverse.mp hw)
    · exact h.leads_of_stack w (List.mem_cons_of_mem v hw)
  · intro w hw
    rcases hMarked.mp hw with rfl | hw
    · exact hLeads
    · exact h.leads_of_marked w hw
  · -- The operands of the new marked value have just been put on the stack.
    intro u hu w hw
    rcases hMarked.mp hu with rfl | hu
    · exact Or.inr (List.mem_append_left _ (List.mem_reverse.mpr hw))
    · exact hFound (h.operand u hu w hw)

/-- **A round fails no access, keeps the search going, and uses up an entry of the stack or the
operands of a value.** -/
theorem Searches.visit (hOrdered : g.Ordered) (hRoots : ∀ r ∈ roots, r < g.size)
    (h : Searches g roots ⟨marks, v :: rest⟩) :
    ∃ m, Marking.visit g marks v rest = some m ∧ Searches g roots m ∧
      m.pending g + 1 = pending g ⟨marks, v :: rest⟩ := by
  have hv : v < g.size := (h.leads_of_stack v List.mem_cons_self).lt_size hOrdered hRoots
  have hSlot : v < marks.size := h.size_eq ▸ hv
  obtain ⟨value, hGet⟩ := Graph.exists_get? hv
  have hOperands : g.operands v = value.operands := Graph.operands_of_get? hGet
  have hMark : marks[v]? = some marks[v] := Array.getElem?_eq_getElem hSlot
  cases hOld : marks[v] with
  | true =>
    rw [hOld] at hMark
    refine ⟨⟨marks, rest⟩, by simp [Marking.visit, hMark], h.skip hMark, ?_⟩
    show rest.length + ∑ w ∈ unmarked g marks, (g.operands w).length + 1 =
      rest.length + 1 + ∑ w ∈ unmarked g marks, (g.operands w).length
    omega
  | false =>
    rw [hOld] at hMark
    refine ⟨⟨marks.set! v true, (g.operands v).reverse ++ rest⟩,
      by simp [Marking.visit, hMark, hGet, hOperands], h.mark hv, ?_⟩
    -- The operands go from the second part of the bound to the first one.
    have hMem : v ∈ unmarked g marks := mem_unmarked.mpr ⟨hv, hMark⟩
    have hSum := Finset.add_sum_erase _ (fun w => (g.operands w).length) hMem
    have hStack : ((g.operands v).reverse ++ rest).length =
        (g.operands v).length + rest.length := by simp
    show ((g.operands v).reverse ++ rest).length +
        ∑ w ∈ unmarked g (marks.set! v true), (g.operands w).length + 1 =
      rest.length + 1 + ∑ w ∈ unmarked g marks, (g.operands w).length
    rw [unmarked_set hSlot, hStack, ← hSum]
    omega

/-- **A search ends, and its marks are on the values that the roots lead back to.** -/
theorem run_searches (hOrdered : g.Ordered) (hRoots : ∀ r ∈ roots, r < g.size) {rounds : Nat}
    {m : Marking} (h : Searches g roots m) (hRounds : m.pending g ≤ rounds) :
    ∃ marks, run g rounds m = some marks ∧ Searches g roots ⟨marks, []⟩ := by
  induction rounds generalizing m with
  | zero =>
    obtain ⟨marks, _ | ⟨v, rest⟩⟩ := m
    · exact ⟨marks, rfl, h⟩
    · -- An entry of the stack is pending.
      have hEntry : rest.length + 1 ≤ 0 := Nat.le_trans (Nat.le_add_right _ _) hRounds
      exact absurd hEntry (Nat.not_succ_le_zero _)
  | succ rounds ih =>
    obtain ⟨marks, _ | ⟨v, rest⟩⟩ := m
    · exact ⟨marks, rfl, h⟩
    · obtain ⟨m, hVisit, hNext, hPending⟩ := h.visit hOrdered hRoots
      -- One round is used up, and one less is needed.
      rw [run, hVisit]
      exact ih hNext (by omega)

/-- Once the stack is empty, nothing is missing. -/
theorem Searches.marked_iff (h : Searches g roots ⟨marks, []⟩) :
    Marked ⟨marks, []⟩ v ↔ g.LeadsTo roots v := by
  refine ⟨h.leads_of_marked v, ?_⟩
  intro hLeads
  -- The root is not on the stack, and with a value its operands are marked.
  induction hLeads with
  | output hRoot => exact (h.root _ hRoot).resolve_right List.not_mem_nil
  | operand _ hw ih => exact (h.operand _ ih _ hw).resolve_right List.not_mem_nil

end Marking

/-- The search for the primal computation, from the primals of the tags and the bound values. -/
def Trace.searchPrimal (t : Trace) (names : NameTable) (rounds : Nat) : Option (Array Bool) :=
  Marking.run t.graph rounds
    (.start t.graph (t.tags.map (·.primal) ++ names.bound.map (·.value)))

/-! ## Sweeping down the graph -/

section Sweep

variable {g : Graph} {roots marked order : List ValueId} {v : ValueId}

/-- A sweep adds operands of what is there. -/
theorem leadsTo_of_mem_closeDownward (hMarked : ∀ u ∈ marked, g.LeadsTo roots u)
    (h : v ∈ closeDownward g marked order) : g.LeadsTo roots v := by
  induction order generalizing marked with
  | nil => exact hMarked v h
  | cons u order ih =>
    rw [closeDownward] at h
    refine ih ?_ h
    intro w hw
    split at hw
    · rename_i hu
      rcases List.mem_append.mp hw with hw | hw
      · exact .operand (hMarked u (List.contains_iff_mem.mp hu)) hw
      · exact hMarked w hw
    · exact hMarked w hw

/-- **A sweep down the graph collects the values that the roots lead back to.** -/
theorem mem_closeDownward_iff (hOrdered : g.Ordered) :
    v ∈ closeDownward g roots g.ids.reverse ↔ g.LeadsTo roots v := by
  constructor
  · exact leadsTo_of_mem_closeDownward fun u hu => .output hu
  · intro h
    induction h with
    | output hRoot => exact mem_closeDownward_of_mem _ hRoot
    | operand _ hw ih =>
      exact operands_mem_closeDownward hOrdered (Graph.lt_size_of_mem_operands hw) ih hw

end Sweep

/-! ## Threading -/

namespace Trace

variable {t : Trace} {names : NameTable} {options : Options} {v : ValueId}

/-- Reading the tags changes no symbol that is there. -/
theorem grows_thread : names.Grows (thread t names options).1 :=
  (NameTable.grows_foldl grows_nameTag _ _).trans grows_nameLeftovers

/-- **A value of the primal computation that is no argument has the symbol it had, or none.** -/
theorem symbol?_thread_of_mem_primalClosure (hLeaf : t.graph.isLeaf v = false)
    (hArgument : v ∉ t.arguments.map (·.value)) (hPrimal : v ∈ primalClosure t names) :
    (thread t names options).1.symbol? v = names.symbol? v := by
  cases hSymbol : names.symbol? v with
  | some s => exact grows_thread v s hSymbol
  | none =>
    by_contra hSome
    obtain ⟨s, hs⟩ := Option.ne_none_iff_exists'.mp hSome
    -- A new symbol would be a placeholder of an argument, or come from a tag.
    rcases origin_of_nameLeftovers hs with hTagged | hMem
    · rcases origin_of_nameTags hTagged with hOld | ⟨before, tag, after, -, rfl, hTag⟩
      · rw [hSymbol] at hOld
        exact absurd hOld (by simp)
      · obtain ⟨-, -, hOpen, -⟩ := tagSymbol?_eq_some hTag
        rcases hOpen with hInput | hOutside
        · rw [hLeaf] at hInput
          exact Bool.false_ne_true hInput
        · exact hOutside hPrimal
    · exact hArgument hMem

/-- **The sweep collects the primal computation**, given a table with the symbols of the
bindings. -/
theorem mem_primalClosure_iff (hOrdered : t.graph.Ordered)
    (hNames : names.bound.map (·.value) = t.bindings.map (·.value)) :
    v ∈ primalClosure t names ↔ t.IsPrimal v := by
  show v ∈ (closeDownward t.graph _ t.graph.ids.reverse).eraseDups ↔ _
  rw [List.mem_eraseDups, mem_closeDownward_iff hOrdered, hNames]
  rfl

/-- What the primal computation starts from are values of an imported trace. -/
theorem Importable.root_lt (h : t.Importable) :
    ∀ r ∈ t.tags.map (·.primal) ++ t.bindings.map (·.value), r < t.graph.size := by
  intro r hr
  rcases List.mem_append.mp hr with hr | hr
  · obtain ⟨tag, hTag, rfl⟩ := List.mem_map.mp hr
    exact (h.tag_lt tag hTag).1
  · obtain ⟨b, hb, rfl⟩ := List.mem_map.mp hr
    exact (lt_size_of_replayBindings h.wellFormed.bindings b hb).1

/-- **The primal computation of an imported trace is what the primals of its tags and the targets of
its bindings lead back to.** The search for it ends after no more rounds than there are tags,
bindings and operands, and marks these values and no others; the sweep down the graph collects the
same ones. When derivative quantities get their symbols, the values of the primal computation that
are no inputs get none, and whatever symbol a value has from the arguments and bindings it keeps. -/
theorem primal_computation_exact {text : String} (hText : ofText text = .ok t) {function : String}
    (hNames : (resolveNames function t.arguments t.bindings).1 = names) :
    (∀ rounds, t.tags.length + t.bindings.length +
        ∑ v ∈ Finset.range t.graph.size, (t.graph.operands v).length ≤ rounds →
      ∃ marks, t.searchPrimal names rounds = some marks ∧ marks.size = t.graph.size ∧
        ∀ v, marks[v]? = some true ↔ t.IsPrimal v) ∧
    (∀ v, v ∈ primalClosure t names ↔ t.IsPrimal v) ∧
    ∀ options,
      (∀ v, t.IsPrimal v → t.graph.isLeaf v = false →
        (thread t names options).1.symbol? v = names.symbol? v) ∧
      ∀ v s, names.symbol? v = some s → (thread t names options).1.symbol? v = some s := by
  have hImportable := importable_of_ofText hText
  have hOrdered : t.graph.Ordered := hImportable.wellFormed.graph.ordered
  have hBound : names.bound.map (·.value) = t.bindings.map (·.value) :=
    hNames ▸ (resolvedNames function t.arguments t.bindings).values
  have hClosure : ∀ v, v ∈ primalClosure t names ↔ t.IsPrimal v := fun v =>
    mem_primalClosure_iff hOrdered hBound
  refine ⟨?_, hClosure, ?_⟩
  · -- All operands are pending when the search starts, for nothing is marked.
    intro rounds hRounds
    rw [searchPrimal, hBound]
    let roots := t.tags.map (·.primal) ++ t.bindings.map (·.value)
    have hEnough : (Marking.start t.graph roots).pending t.graph ≤ rounds := by
      rw [Marking.pending_start]
      simpa [roots] using hRounds
    obtain ⟨marks, hRun, hEnd⟩ := Marking.run_searches hOrdered hImportable.root_lt
      (Marking.searches_start t.graph roots) hEnough
    exact ⟨marks, hRun, hEnd.size_eq, fun v => hEnd.marked_iff⟩
  · intro options
    refine ⟨?_, grows_thread⟩
    intro v hPrimal hLeaf
    -- The arguments of an imported trace are inputs.
    have hArgument : v ∉ t.arguments.map (·.value) := by
      intro hMem
      obtain ⟨a, ha, rfl⟩ := List.mem_map.mp hMem
      rw [hImportable.wellFormed.leaf_of_argument a ha] at hLeaf
      exact Bool.false_ne_true hLeaf.symm
    exact symbol?_thread_of_mem_primalClosure hLeaf hArgument ((hClosure v).mpr hPrimal)

/-- A named negative square, whose square is said to be a tangent of the argument too, and a sum
that is said to be the tangent of the square. -/
def taggedSquare : Trace where
  name := "f"
  graph := ⟨#[⟨.leaf, [2]⟩, ⟨.op (.arith .mul) [0, 0], [2]⟩, ⟨.op .neg [1], [2]⟩,
    ⟨.op (.arith .add) [0, 0], [2]⟩]⟩
  arguments := [⟨0, some "x", false⟩]
  bindings := [⟨0, "z", 2, none⟩]
  tags := [⟨.tangent, 0, 1⟩, ⟨.tangent, 2, 3⟩]
  outputs := [2, 3]

theorem taggedSquare_imported : ∃ text, ofText text = .ok taggedSquare :=
  exists_text_of_ofDraft (by decide) (by decide) (by decide) (by decide)

/-- The square keeps its own form, and the sum is called after the named value. -/
theorem primal_computation_exact_taggedSquare :
    ∃ names marks, (resolveNames "f" taggedSquare.arguments taggedSquare.bindings).1 = names ∧
      taggedSquare.searchPrimal names 8 = some marks ∧ marks = #[true, true, true, false] ∧
      (1 ∈ primalClosure taggedSquare names ∧ taggedSquare.graph.isLeaf 1 = false ∧
        (thread taggedSquare names {}).1.symbol? 1 = none) ∧
      (thread taggedSquare names {}).1.symbol? 2 = some (.plain "z") ∧
      (thread taggedSquare names {}).1.symbol? 3 = some (.plain "dz") := by
  obtain ⟨text, hText⟩ := taggedSquare_imported
  have hNames : (resolveNames "f" taggedSquare.arguments taggedSquare.bindings).1 =
      taggedSquare.table {} := rfl
  obtain ⟨hSearch, hClosure, hThread⟩ := primal_computation_exact hText hNames
  obtain ⟨marks, hMarks, -, -⟩ := hSearch 8 (by decide)
  have hMem : 1 ∈ primalClosure taggedSquare (taggedSquare.table {}) := by decide
  obtain ⟨hSame, hKept⟩ := hThread {}
  refine ⟨taggedSquare.table {}, marks, rfl, hMarks, ?_, ⟨hMem, by decide, ?_⟩, ?_,
    by decide +kernel⟩
  · have hFound : taggedSquare.searchPrimal (taggedSquare.table {}) 8 =
        some #[true, true, true, false] := by decide
    exact Option.some.inj (hMarks.symm.trans hFound)
  · rw [hSame 1 ((hClosure 1).mp hMem) (by decide)]
    decide
  · exact hKept 2 _ (by decide +kernel)

end Trace

end ArrayEquations
