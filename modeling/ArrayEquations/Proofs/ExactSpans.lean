import Mathlib
import ArrayEquations.Proofs.ScriptOutcomes
import ArrayEquations.Proofs.SlicedTexts
import ArrayEquations.Proofs.UniquePlaces

/-!
# ArrayEquations — exact places

The place of every part of a script is that of its own text: taken out of the source, the text of a
term or of a definition is read as just that part, with all places counted from its start. For the
text is read as the tokens of the part, which make up some part again, and a row of tokens makes up
one part only.

The brackets around a term do not count for its place, so the tokens of a term are those inside all
brackets. They are what its place is found from.

## Main definitions

* `parseTerm` — a source as a single term.
* `Term.Node`, `SourceFile.HasNode`, `SourceFile.HasName` — the terms and the names of a script.
* `Span.Holds` — places inside another one, one after another.

## Main results

* `parse_places_exact` — the places of the parts of a script.
-/

namespace ArrayEquations

/-- Inside a place there are others that are not empty and follow one another. -/
structure Span.Holds (outer : Span) (inner : List Span) : Prop where
  nonempty : ∀ p ∈ inner, p.start < p.stop
  ordered : inner.Pairwise fun p q => p.stop ≤ q.start
  inside : ∀ p ∈ inner, outer.start ≤ p.start ∧ p.stop ≤ outer.stop

end ArrayEquations

namespace ArrayEquations.Script

/-! ## Parts -/

/-- A source as a single term. -/
def parseTerm (source : String) : Option Term :=
  match Reading.term.run ⟨(lex source).tokens, source.utf8ByteSize⟩ with
  | .ok (e, ⟨[], _⟩) => if (lex source).errors = [] then some e else none
  | _ => none

/-- The terms that a term is made of, itself among them. -/
inductive Term.Node (x : Term) : Term → Prop
  | self : Term.Node x x
  | operand {span : Span} {e : Term} (h : Term.Node x e) : Term.Node x (.neg span e)
  | left {span : Span} {op : BinaryOp} {lhs rhs : Term} (h : Term.Node x lhs) :
      Term.Node x (.binary span op lhs rhs)
  | right {span : Span} {op : BinaryOp} {lhs rhs : Term} (h : Term.Node x rhs) :
      Term.Node x (.binary span op lhs rhs)
  | argument {span : Span} {callee : Identifier} {arguments : List Term} {e : Term}
      (he : e ∈ arguments) (h : Term.Node x e) : Term.Node x (.call span callee arguments)
  | value {span : Span} {value : Term} {name : Identifier} {dependsOn : Option (List Identifier)}
      (h : Term.Node x value) : Term.Node x (.named span value name dependsOn)

/-- The names that stand in a term itself, in order. -/
def Term.names : Term → List Identifier
  | .var name => [name]
  | .call _ callee _ => [callee]
  | .named _ _ name dependsOn => name :: dependsOn.getD []
  | .number _ _ | .dims _ _ | .neg _ _ | .binary _ _ _ _ => []

/-- The places of the parts of a term, in order: of the terms and the names in it. -/
def Term.partSpans : Term → List Span
  | .var name => [name.span]
  | .neg _ e => [e.span]
  | .binary _ _ lhs rhs => [lhs.span, rhs.span]
  | .call _ callee arguments => callee.span :: arguments.map Term.span
  | .named _ value name dependsOn =>
    value.span :: (name :: dependsOn.getD []).map Identifier.span
  | .number _ _ | .dims _ _ => []

/-- The terms of a statement. -/
def Statement.terms : Statement → List Term
  | .bind _ _ value => [value]
  | .result _ values => values

/-- The name that a statement binds. -/
def Statement.names : Statement → List Identifier
  | .bind _ name _ => [name]
  | .result _ _ => []

/-- A term stands in a script, as a part of another one or on its own. -/
def SourceFile.HasNode (f : SourceFile) (x : Term) : Prop :=
  ∃ d ∈ f.definitions, ∃ s ∈ d.body, ∃ e ∈ s.terms, x.Node e

/-- A name stands in a script: that of a definition, of a parameter or of a bound value, or one in
a term. -/
inductive SourceFile.HasName (f : SourceFile) (n : Identifier) : Prop
  | definition {d : Definition} (hd : d ∈ f.definitions) (h : n = d.name)
  | parameter {d : Definition} {p : Parameter} (hd : d ∈ f.definitions) (hp : p ∈ d.parameters)
      (h : n = p.name)
  | bound {d : Definition} {s : Statement} (hd : d ∈ f.definitions) (hs : s ∈ d.body)
      (h : n ∈ s.names)
  | inTerm {x : Term} (hx : f.HasNode x) (h : n ∈ x.names)

/-! ## Rows within rows -/

variable {row rest : List Lexeme} {rows : List (List Lexeme)}

namespace Lexeme

theorem Enclosed.flatten_sublist {closing : Mark} (h : Enclosed closing rows row) :
    rows.flatten.Sublist row := by
  induction h with
  | close => simp
  | last item => simp
  | more item hComma _ ih =>
    rw [List.flatten_cons]
    exact (List.Sublist.refl item).append (ih.cons _)

theorem Enclosed.isInfix {closing : Mark} (h : Enclosed closing rows row) :
    ∀ item ∈ rows, item <:+: row := by
  induction h with
  | close => simp
  | @last item c _ =>
    intro item' hItem
    obtain rfl := List.mem_singleton.mp hItem
    exact ⟨[], [c], rfl⟩
  | @more item c items row _ _ ih =>
    intro item' hItem
    rcases List.mem_cons.mp hItem with rfl | hItem
    · exact ⟨[], c :: row, rfl⟩
    · exact (ih item' hItem).trans ⟨item ++ [c], [], by simp⟩

theorem Separated.isInfix (h : Separated rows row) : ∀ item ∈ rows, item <:+: row := by
  induction h with
  | last item =>
    intro item' hItem
    obtain rfl := List.mem_singleton.mp hItem
    exact List.infix_refl _
  | @more item c items row _ _ ih =>
    intro item' hItem
    rcases List.mem_cons.mp hItem with rfl | hItem
    · exact ⟨[], c :: row, rfl⟩
    · exact (ih item' hItem).trans ⟨item ++ [c], [], by simp⟩

theorem Separated.flatten_sublist (h : Separated rows row) : rows.flatten.Sublist row := by
  induction h with
  | last item => simp
  | more item hComma _ ih =>
    rw [List.flatten_cons]
    exact (List.Sublist.refl item).append (ih.cons _)

theorem Lined.isInfix {closing : List Token} (h : Lined closing rows row) :
    ∀ item ∈ rows, item <:+: row := by
  induction h with
  | close => simp
  | @last lines row _ item _ =>
    intro item' hItem
    obtain rfl := List.mem_singleton.mp hItem
    exact ⟨lines, row, List.append_assoc _ _ _⟩
  | @more lines row _ item l items _ _ ih =>
    intro item' hItem
    rcases List.mem_cons.mp hItem with rfl | hItem
    · exact ⟨lines, l :: row, List.append_assoc _ _ _⟩
    · exact (ih item' hItem).trans ⟨lines ++ (item ++ [l]), [], by simp⟩

end Lexeme

/-- Each item of a list has one beside it. -/
theorem exists_of_forall₂ {α β : Type} {R : α → β → Prop} {as : List α} {bs : List β}
    (h : List.Forall₂ R as bs) {a : α} (ha : a ∈ as) : ∃ b ∈ bs, R a b := by
  obtain ⟨i, hi, rfl⟩ := List.getElem_of_mem ha
  have hi' : i < bs.length := h.length_eq ▸ hi
  exact ⟨bs[i], List.getElem_mem hi', h.get hi hi'⟩

/-! ## Terms inside brackets -/

variable {e x : Term} {l : Strength} {places : List Span}

/-- The places are those of rows that stand one after another in a row. -/
def AreIn (places : List Span) (row : List Lexeme) : Prop :=
  ∃ rows : List (List Lexeme), rows.flatten.Sublist row ∧
    List.Forall₂ (fun p part => part ≠ [] ∧ p = spanOf part) places rows

/-- A term has its place, and those of its parts, from a row that stands in another one. -/
structure Term.HasCore (e : Term) (core row : List Lexeme) : Prop where
  within : core <:+: row
  placed : e.Placed .naming core
  span : e.span = spanOf core
  parts : AreIn e.partSpans core

theorem areIn_nil : AreIn [] row := ⟨[], List.nil_sublist row, .nil⟩

/-- A place before others. -/
theorem AreIn.cons {part : List Lexeme} {p : Span} (h : AreIn places rest)
    (hPart : part ≠ [] ∧ p = spanOf part) (hRow : (part ++ rest).Sublist row) :
    AreIn (p :: places) row := by
  obtain ⟨rows, hRows, hPlaces⟩ := h
  exact ⟨part :: rows, ((List.Sublist.refl part).append hRows).trans hRow, .cons hPart hPlaces⟩

/-- A place alone. -/
theorem areIn_single {part : List Lexeme} {p : Span} (hPart : part ≠ [] ∧ p = spanOf part)
    (hRow : part.Sublist row) : AreIn [p] row :=
  ⟨[part], by rwa [List.flatten_singleton], .cons hPart .nil⟩

theorem Term.HasCore.ne_nil {core : List Lexeme} (h : e.HasCore core row) : core ≠ [] :=
  h.placed.ne_nil

/-- The places of terms that stand in rows one after another. -/
theorem areIn_of_cores {es : List Term}
    (h : List.Forall₂ (fun e row => ∃ core, Term.HasCore e core row) es rows) :
    AreIn (es.map Term.span) rows.flatten := by
  induction h with
  | nil => exact areIn_nil
  | cons hOne _ ih =>
    obtain ⟨core, hCore⟩ := hOne
    refine ih.cons ⟨hCore.ne_nil, hCore.span⟩ ?_
    exact hCore.within.sublist.append (List.Sublist.refl _)

theorem areIn_of_names {names : List Identifier} (h : List.Forall₂ Identifier.Placed names rows) :
    AreIn (names.map Identifier.span) rows.flatten := by
  induction h with
  | nil => exact areIn_nil
  | cons hOne _ ih =>
    obtain ⟨t, rfl, hAt⟩ := hOne
    exact ih.cons ⟨List.cons_ne_nil t [], hAt.2⟩ (List.Sublist.refl _)

theorem DependenciesPlaced.areIn {dependsOn : Option (List Identifier)}
    (h : DependenciesPlaced dependsOn row) :
    AreIn ((dependsOn.getD []).map Identifier.span) row := by
  cases h with
  | absent => exact areIn_nil
  | @names names rows row o c _ hNames h _ =>
    obtain ⟨parts, hParts, hPlaces⟩ := areIn_of_names hNames
    refine ⟨parts, (hParts.trans h.flatten_sublist).trans ?_, hPlaces⟩
    exact (List.sublist_append_left row [c]).cons o

/-- **A term has its place from the tokens inside all brackets around it**, and these make it up. -/
theorem Term.Placed.exists_core (h : e.Placed l row) : ∃ core, e.HasCore core row := by
  induction h with
  | number h => exact ⟨_, List.infix_refl _, .number h, rfl, areIn_nil⟩
  | dims h => exact ⟨_, List.infix_refl _, .dims h, rfl, areIn_nil⟩
  | @var l name t h =>
    refine ⟨[t], List.infix_refl _, .var h, h.2, ?_⟩
    exact areIn_single ⟨List.cons_ne_nil t [], h.2⟩ (List.Sublist.refl _)
  | @call l callee arguments t o rows row hCallee hOpen hLength h hRow ih =>
    have hCores := areIn_of_cores (List.forall₂_iff_zip.mpr ⟨hLength, fun hp => ih _ hp⟩)
    refine ⟨_, List.infix_refl _, .call hCallee hOpen hLength h hRow, rfl, ?_⟩
    refine hCores.cons ⟨List.cons_ne_nil t [], hCallee.2⟩ ?_
    exact (hRow.flatten_sublist.cons o).cons_cons t
  | @neg l e t row hStrength hMinus h ih =>
    obtain ⟨core, hCore⟩ := ih
    refine ⟨_, List.infix_refl _, .neg (Strength.naming_le _) hMinus h, rfl, ?_⟩
    exact areIn_single ⟨hCore.ne_nil, hCore.span⟩ (hCore.within.sublist.cons t)
  | @binary l op lhs rhs t left right hStrength hLeft hOp hRight ihLeft ihRight =>
    obtain ⟨leftCore, hLeftCore⟩ := ihLeft
    obtain ⟨rightCore, hRightCore⟩ := ihRight
    refine ⟨_, List.infix_refl _, .binary (Strength.naming_le _) hLeft hOp hRight, rfl, ?_⟩
    have hLast : AreIn [rhs.span] (t :: right) :=
      areIn_single ⟨hRightCore.ne_nil, hRightCore.span⟩ (hRightCore.within.sublist.cons t)
    exact hLast.cons ⟨hLeftCore.ne_nil, hLeftCore.span⟩
      (hLeftCore.within.sublist.append (List.Sublist.refl _))
  | @named l value name dependsOn t n row later hStrength h hNaming hName hDependsOn ih =>
    obtain ⟨core, hCore⟩ := ih
    refine ⟨_, List.infix_refl _,
      .named (Strength.naming_le _) h hNaming hName hDependsOn, rfl, ?_⟩
    have hNames : AreIn ((name :: dependsOn.getD []).map Identifier.span) (t :: n :: later) :=
      hDependsOn.areIn.cons ⟨List.cons_ne_nil n [], hName.2⟩ (List.sublist_cons_self t _)
    exact hNames.cons ⟨hCore.ne_nil, hCore.span⟩
      (hCore.within.sublist.append (List.Sublist.refl _))
  | @brackets l e o c row _ _ _ ih =>
    -- Brackets do not count: the tokens are those that the term has without them.
    obtain ⟨core, hCore⟩ := ih
    have hWithin : row <:+: o :: (row ++ [c]) := ⟨[o], [c], rfl⟩
    exact ⟨core, hCore.within.trans hWithin, hCore.placed, hCore.span, hCore.parts⟩

/-- A term that another one is made of has a row within its row. -/
theorem Term.Placed.exists_node (h : e.Placed l row) (hNode : x.Node e) :
    ∃ k part, part <:+: row ∧ x.Placed k part := by
  induction h with
  | number h =>
    cases hNode
    exact ⟨.naming, _, List.infix_refl _, .number h⟩
  | dims h =>
    cases hNode
    exact ⟨.naming, _, List.infix_refl _, .dims h⟩
  | var h =>
    cases hNode
    exact ⟨.naming, _, List.infix_refl _, .var h⟩
  | @call l callee arguments t o rows row hCallee hOpen hLength h hRow ih =>
    cases hNode with
    | self => exact ⟨.naming, _, List.infix_refl _, .call hCallee hOpen hLength h hRow⟩
    | argument he hNode =>
      obtain ⟨item, hItem, hMem⟩ := exists_of_forall₂
        (List.forall₂_iff_zip.mpr ⟨hLength, fun hp => hp⟩) he
      obtain ⟨k, part, hPart, hPlaced⟩ := ih _ hMem hNode
      exact ⟨k, part, (hPart.trans (hRow.isInfix item hItem)).trans ⟨[t, o], [], by simp⟩, hPlaced⟩
  | @neg l e t row hStrength hMinus h ih =>
    cases hNode with
    | self => exact ⟨l, _, List.infix_refl _, .neg hStrength hMinus h⟩
    | operand hNode =>
      obtain ⟨k, part, hPart, hPlaced⟩ := ih hNode
      exact ⟨k, part, hPart.trans ⟨[t], [], by simp⟩, hPlaced⟩
  | @binary l op lhs rhs t left right hStrength hLeft hOp hRight ihLeft ihRight =>
    cases hNode with
    | self => exact ⟨l, _, List.infix_refl _, .binary hStrength hLeft hOp hRight⟩
    | left hNode =>
      obtain ⟨k, part, hPart, hPlaced⟩ := ihLeft hNode
      exact ⟨k, part, hPart.trans ⟨[], t :: right, rfl⟩, hPlaced⟩
    | right hNode =>
      obtain ⟨k, part, hPart, hPlaced⟩ := ihRight hNode
      exact ⟨k, part, hPart.trans ⟨left ++ [t], [], by simp⟩, hPlaced⟩
  | @named l value name dependsOn t n row later hStrength h hNaming hName hDependsOn ih =>
    cases hNode with
    | self => exact ⟨l, _, List.infix_refl _, .named hStrength h hNaming hName hDependsOn⟩
    | value hNode =>
      obtain ⟨k, part, hPart, hPlaced⟩ := ih hNode
      exact ⟨k, part, hPart.trans ⟨[], t :: n :: later, rfl⟩, hPlaced⟩
  -- Brackets are no node of the tree, so the node is one of the term inside.
  | @brackets l e o c row _ _ _ ih =>
    obtain ⟨k, part, hPart, hPlaced⟩ := ih hNode
    exact ⟨k, part, hPart.trans ⟨[o], [c], rfl⟩, hPlaced⟩

/-! ## Order -/

/-- Tokens that are not empty and follow one another. -/
structure InOrder (row : List Lexeme) : Prop where
  nonempty : ∀ t ∈ row, t.span.start < t.span.stop
  ordered : row.Pairwise fun t u => t.span.stop ≤ u.span.start

theorem InOrder.sublist {part : List Lexeme} (h : InOrder row) (hPart : part.Sublist row) :
    InOrder part :=
  ⟨fun t ht => h.nonempty t (hPart.subset ht), h.ordered.sublist hPart⟩

theorem exists_endOf (hSome : row ≠ []) (reached : Nat) :
    ∃ t ∈ row, endOf row reached = t.span.stop := by
  induction row generalizing reached with
  | nil => exact absurd rfl hSome
  | cons t row ih =>
    by_cases hNil : row = []
    · subst hNil
      exact ⟨t, List.mem_cons_self, rfl⟩
    · obtain ⟨u, hu, hEnd⟩ := ih hNil t.span.stop
      exact ⟨u, List.mem_cons_of_mem t hu, hEnd⟩

theorem InOrder.stop_le_endOf (h : InOrder row) {t : Lexeme} (ht : t ∈ row) (reached : Nat) :
    t.span.stop ≤ endOf row reached := by
  induction row generalizing reached with
  | nil => exact absurd ht List.not_mem_nil
  | cons u row ih =>
    have hLater := h.sublist (List.sublist_cons_self u row)
    rcases List.mem_cons.mp ht with rfl | ht
    · by_cases hNil : row = []
      · rw [hNil]
        exact Nat.le_refl _
      · obtain ⟨v, hv, hEnd⟩ := exists_endOf hNil t.span.stop
        have hBefore := (List.pairwise_cons.mp h.ordered).1 v hv
        have hSome := hLater.nonempty v hv
        rw [endOf_cons, hEnd]
        omega
    · exact ih hLater ht u.span.stop

/-- The place of a row holds those of its tokens. -/
theorem InOrder.spanOf_holds (h : InOrder row) {t : Lexeme} (ht : t ∈ row) :
    (spanOf row).start ≤ t.span.start ∧ t.span.stop ≤ (spanOf row).stop := by
  cases row with
  | nil => exact absurd ht List.not_mem_nil
  | cons u row =>
    refine ⟨?_, h.stop_le_endOf ht 0⟩
    rcases List.mem_cons.mp ht with rfl | ht
    · exact Nat.le_refl _
    · have hBefore := (List.pairwise_cons.mp h.ordered).1 t ht
      have hSome := h.nonempty u List.mem_cons_self
      exact Nat.le_trans (Nat.le_of_lt hSome) hBefore

/-- A row has its place from a first and a last token. -/
theorem exists_ends (hSome : row ≠ []) :
    ∃ t ∈ row, ∃ u ∈ row, spanOf row = ⟨t.span.start, u.span.stop⟩ := by
  obtain ⟨t, row, rfl⟩ := List.exists_cons_of_ne_nil hSome
  obtain ⟨u, hu, hEnd⟩ := exists_endOf hSome 0
  exact ⟨t, List.mem_cons_self, u, hu, by rw [spanOf, ← endOf_cons t row 0, hEnd]⟩

/-- Rows one after another have places one after another. -/
theorem InOrder.flatten_holds (h : InOrder rows.flatten)
    (hPlaces : List.Forall₂ (fun p part => part ≠ [] ∧ p = spanOf part) places rows) :
    (∀ p ∈ places, p.start < p.stop ∧ ∃ t ∈ rows.flatten, ∃ u ∈ rows.flatten,
      p = ⟨t.span.start, u.span.stop⟩) ∧ places.Pairwise fun p q => p.stop ≤ q.start := by
  induction hPlaces with
  | nil => exact ⟨by simp, .nil⟩
  | @cons p part places rows hPart _ ih =>
    obtain ⟨hSome, rfl⟩ := hPart
    rw [List.flatten_cons] at h ⊢
    obtain ⟨hEach, hPairs⟩ := ih (h.sublist (List.sublist_append_right _ _))
    -- The span of the first part runs from its first token to its last one.
    obtain ⟨t, ht, u, hu, hSpan⟩ := exists_ends hSome
    refine ⟨List.forall_mem_cons.mpr ⟨⟨?_, ?_⟩, ?_⟩, List.pairwise_cons.mpr ⟨?_, hPairs⟩⟩
    · have hHolds := (h.sublist (List.sublist_append_left _ _)).spanOf_holds ht
      have hToken := h.nonempty t (List.mem_append_left _ ht)
      omega
    · exact ⟨t, List.mem_append_left _ ht, u, List.mem_append_left _ hu, hSpan⟩
    · intro p hp
      obtain ⟨hp, v, hv, w, hw, hSame⟩ := hEach p hp
      exact ⟨hp, v, List.mem_append_right _ hv, w, List.mem_append_right _ hw, hSame⟩
    · intro p hp
      obtain ⟨-, v, hv, -, -, rfl⟩ := hEach p hp
      rw [hSpan]
      exact (List.pairwise_append.mp h.ordered).2.2 u hu v hv

/-- The place of a row holds those of rows in it. -/
theorem AreIn.holds (h : AreIn places row) (hOrder : InOrder row) :
    (spanOf row).Holds places := by
  obtain ⟨rows, hRows, hPlaces⟩ := h
  obtain ⟨hEach, hPairs⟩ := (hOrder.sublist hRows).flatten_holds hPlaces
  refine ⟨fun p hp => (hEach p hp).1, hPairs, ?_⟩
  intro p hp
  obtain ⟨-, t, ht, u, hu, rfl⟩ := hEach p hp
  exact ⟨(hOrder.spanOf_holds (hRows.subset ht)).1, (hOrder.spanOf_holds (hRows.subset hu)).2⟩

theorem inOrder_lex (source : String) : InOrder (lex source).tokens := by
  have hText : source.toList = [] ++ source.toList := rfl
  obtain ⟨places, hFills⟩ := (cuts_lexFrom 0 source.toList).exists_fills hText rfl
  constructor
  · exact fun t ht => hFills.nonempty _ (hFills.tokens.subset (List.mem_map_of_mem ht))
  · exact List.pairwise_map.mp (hFills.ordered.sublist hFills.tokens)

/-! ## Reading parts alone -/

variable {source text : String} {row' : List Lexeme} {s : Nat} {d : Definition}

/-- The tokens of a term on their own are read as the term, without the shift. -/
theorem Term.Placed.parseTerm (h : x.Placed l (shiftRow s row')) (hText : lex text = ⟨row', []⟩) :
    ∃ e, parseTerm text = some e ∧ e.shift s = x := by
  have hTakes := Reading.takes_term (h.mono (Strength.naming_le l)).written
  rw [tokensOf_shift] at hTakes
  obtain ⟨e, reached, hRun, -⟩ := hTakes row' [] text.utf8ByteSize rfl (by simp)
  rw [List.append_nil] at hRun
  refine ⟨e, ?_, ?_⟩
  · unfold Script.parseTerm
    rw [hText]
    simp only [hRun, if_true]
  · have hOutcome : Reading.Reads 0 _ _ _ _ ⟨row', text.utf8ByteSize⟩ := Reading.reads_term
    cases hOutcome with
    | stops before rest _ hStops => exact absurd (hRun.symm.trans hStops) (by simp)
    | takes e' part rest hRest hTaken hPlaced =>
      -- What is read has its places on the whole row, and that settles it.
      obtain ⟨rfl, hCursor⟩ := Prod.mk.inj (Except.ok.inj (hRun.symm.trans hTaken))
      obtain rfl : [] = rest := congrArg Cursor.rest hCursor
      rw [List.append_nil] at hRest
      obtain rfl : row' = part := hRest
      exact hPlaced.shift.unique h

theorem parseTokens_placed {size : Nat} {tokens : List Lexeme} {f : SourceFile}
    (h : parseTokens size tokens = .ok f) : f.Placed tokens := by
  unfold parseTokens at h
  have hOutcome : Reading.Reads 0 _ _ _ _ ⟨tokens, size⟩ := Reading.reads_file
  cases hOutcome with
  | stops before rest _ hStops =>
    rw [hStops] at h
    cases rest <;> exact absurd h (by simp)
  | takes g part rest _ hTaken hPlaced =>
    rw [hTaken] at h
    obtain rfl : g = f := Except.ok.inj h
    obtain ⟨rfl, hFile⟩ := hPlaced
    exact hFile

/-- A script of one definition begins with the row of it, if not with a line end. -/
theorem Lexeme.Lined.exists_row {k : Lexeme} {more : List Lexeme}
    (h : Lexeme.Lined [] rows (k :: more)) (hItems : List.Forall₂ Definition.Placed [d] rows)
    (hk : k.token ≠ .newline) : ∃ part rest, k :: more = part ++ rest ∧ d.Placed part := by
  have hNoLines : ∀ {lines rest : List Lexeme}, AreLines lines → k :: more = lines ++ rest →
      k :: more = rest := by
    intro lines rest hLines hRow
    cases lines with
    | nil => exact hRow
    | cons l lines =>
      obtain ⟨rfl, -⟩ := List.cons.inj hRow
      exact absurd (hLines k List.mem_cons_self) hk
  generalize hRow : k :: more = row at h
  cases h with
  | close => exact absurd hItems (by simp)
  | last hLines item =>
    exact ⟨item, _, hRow ▸ hNoLines hLines hRow, (List.forall₂_cons.mp hItems).1⟩
  | more hLines item =>
    exact ⟨item, _, hRow ▸ hNoLines hLines hRow, (List.forall₂_cons.mp hItems).1⟩

/-- The tokens of a definition on their own are read as a script of just it, without the shift. -/
theorem Definition.Placed.parse (h : d.Placed (shiftRow s row')) (hText : lex text = ⟨row', []⟩) :
    ∃ d' span, parse text = ⟨some ⟨[d'], span⟩, []⟩ ∧ d'.shift s = d := by
  have hOne := h.written
  rw [tokensOf_shift] at hOne
  -- A definition alone, with no line breaks around it, is a file.
  have hWritten : SourceFile.Written True ⟨[d], ⟨0, 0⟩⟩ (tokensOf row') := by
    have hLined : Lined [] [tokensOf row'] (tokensOf row' ++ []) := .last 0 (tokensOf row')
    rw [List.append_nil] at hLined
    exact .lines (.cons hOne .nil) hLined
  obtain ⟨⟨definitions, span⟩, hParsed, hBare⟩ := parseTokens_written hWritten text.utf8ByteSize
  obtain ⟨d', rfl, -⟩ := List.map_eq_singleton_iff.mp (congrArg SourceFile.definitions hBare)
  refine ⟨d', span, ?_, ?_⟩
  · unfold Script.parse
    rw [hText]
    simp only [hParsed, List.map_nil]
  · -- The row of the definition that is read is the whole row.
    obtain ⟨us, hKeyword⟩ := Reading.begins_definition hOne
    obtain ⟨k, more, rfl, hk, -⟩ := List.map_eq_cons_iff.mp hKeyword
    cases parseTokens_placed hParsed with
    | lines hItems hLined =>
      obtain ⟨part, rest, hRow, hPart⟩ := hLined.exists_row hItems (by rw [hk]; decide)
      rw [← List.append_nil (k :: more)] at hRow
      obtain ⟨rfl, -⟩ := (Reading.takes_definition hOne).row_eq
        (Reading.takes_definition hPart.written) hRow (by simp) fun _ _ => id
      exact hPart.shift.unique h rfl

/-! ## Parts of scripts -/

variable {f : SourceFile} {statement : Statement} {n : Identifier}

theorem SourceFile.Placed.exists_definition (h : f.Placed row) (hd : d ∈ f.definitions) :
    ∃ part, part <:+: row ∧ d.Placed part := by
  cases h with
  | lines h hLines =>
    obtain ⟨part, hPart, hPlaced⟩ := exists_of_forall₂ h hd
    exact ⟨part, hLines.isInfix part hPart, hPlaced⟩

theorem Definition.Placed.exists_statement (h : d.Placed row) (hs : statement ∈ d.body) :
    ∃ part, part <:+: row ∧ statement.Placed part := by
  cases h with
  | @parts _ _ _ k t o _ list later _ _ _ _ _ hBody =>
    cases hBody with
    | @lines brace _ inside _ h hLines =>
      obtain ⟨part, hPart, hPlaced⟩ := exists_of_forall₂ h hs
      refine ⟨part, (hLines.isInfix part hPart).trans ?_, hPlaced⟩
      exact ⟨k :: t :: o :: (list ++ [brace]), [], by simp⟩

theorem Statement.Placed.exists_term (h : statement.Placed row) (he : e ∈ statement.terms) :
    ∃ part, part <:+: row ∧ e.Placed .naming part := by
  cases h with
  | @bind _ _ k t o row _ _ _ h =>
    obtain rfl := List.mem_singleton.mp he
    exact ⟨row, ⟨[k, t, o], [], by simp⟩, h⟩
  | @result _ k rows row _ h hRow =>
    obtain ⟨part, hPart, hPlaced⟩ := exists_of_forall₂ h he
    exact ⟨part, (hRow.isInfix part hPart).trans ⟨[k], [], by simp⟩, hPlaced⟩

/-- A term of a script has a row among its tokens. -/
theorem SourceFile.Placed.exists_node (h : f.Placed row) (hx : f.HasNode x) :
    ∃ k part, part <:+: row ∧ x.Placed k part := by
  obtain ⟨d, hd, s, hs, e, he, hNode⟩ := hx
  obtain ⟨_, hDefinition, hPlaced⟩ := h.exists_definition hd
  obtain ⟨_, hStatement, hPlaced⟩ := hPlaced.exists_statement hs
  obtain ⟨_, hTerm, hPlaced⟩ := hPlaced.exists_term he
  obtain ⟨k, part, hPart, hPlaced⟩ := hPlaced.exists_node hNode
  exact ⟨k, part, hPart.trans (hTerm.trans (hStatement.trans hDefinition)), hPlaced⟩

theorem mem_of_placed {names : List Identifier} (h : List.Forall₂ Identifier.Placed names rows)
    (hn : n ∈ names) : ∃ t ∈ rows.flatten, n.PlacedAt t := by
  obtain ⟨_, hRow, t, rfl, hAt⟩ := exists_of_forall₂ h hn
  exact ⟨t, List.mem_flatten.mpr ⟨_, hRow, List.mem_singleton_self t⟩, hAt⟩

/-- A name that stands in a term itself is one of its tokens. -/
theorem Term.Placed.exists_name (h : x.Placed l row) (hn : n ∈ x.names) :
    ∃ t ∈ row, n.PlacedAt t := by
  induction h with
  | number | dims | neg | binary => exact absurd hn List.not_mem_nil
  | var h =>
    obtain rfl := List.mem_singleton.mp hn
    exact ⟨_, List.mem_cons_self, h⟩
  | call hCallee =>
    obtain rfl := List.mem_singleton.mp hn
    exact ⟨_, List.mem_cons_self, hCallee⟩
  -- Here two kinds of names are written: the new one, and those that it depends on.
  | @named l value name dependsOn t m row later _ _ _ hName hDependsOn =>
    rcases List.mem_cons.mp hn with rfl | hLater
    · exact ⟨m, by simp, hName⟩
    · cases hDependsOn with
      | absent => exact absurd hLater List.not_mem_nil
      | names _ hNames hList _ =>
        obtain ⟨u, hu, hAt⟩ := mem_of_placed hNames hLater
        exact ⟨u, by simp [hList.flatten_sublist.subset hu], hAt⟩
  | brackets _ _ _ ih =>
    obtain ⟨t, ht, hAt⟩ := ih hn
    exact ⟨t, by simp [ht], hAt⟩

/-- A name of a script is one of its tokens. -/
theorem SourceFile.Placed.exists_name (h : f.Placed row) (hn : f.HasName n) :
    ∃ t ∈ row, n.PlacedAt t := by
  -- A name stands in the row of its definition, parameter, statement or term, which is part of the
  -- row.
  cases hn with
  | definition hd hn =>
    obtain ⟨part, hPart, hPlaced⟩ := h.exists_definition hd
    cases hPlaced with
    | @parts _ _ _ k t _ _ _ _ _ hName =>
      exact ⟨t, hPart.subset (by simp), by rw [hn]; exact hName⟩
  | parameter hd hp hn =>
    obtain ⟨part, hPart, hPlaced⟩ := h.exists_definition hd
    cases hPlaced with
    | parts _ _ _ hParameters hList _ =>
      obtain ⟨item, hItem, hPlaced⟩ := exists_of_forall₂ hParameters hp
      have hSubset : ∀ t ∈ item, t ∈ row := fun t ht =>
        hPart.subset (by simp [(hList.isInfix item hItem).subset ht])
      cases hPlaced with
      | scalar hName => exact ⟨_, hSubset _ List.mem_cons_self, by rw [hn]; exact hName⟩
      | array hName => exact ⟨_, hSubset _ List.mem_cons_self, by rw [hn]; exact hName⟩
  | bound hd hs hn =>
    obtain ⟨part, hPart, hPlaced⟩ := h.exists_definition hd
    obtain ⟨_, hStatement, hPlaced⟩ := hPlaced.exists_statement hs
    cases hPlaced with
    | @bind _ _ k t _ _ _ hName =>
      obtain rfl := List.mem_singleton.mp hn
      exact ⟨t, (hStatement.trans hPart).subset (by simp), hName⟩
    | result => exact absurd hn List.not_mem_nil
  | inTerm hx hn =>
    obtain ⟨k, part, hPart, hPlaced⟩ := h.exists_node hx
    obtain ⟨t, ht, hAt⟩ := hPlaced.exists_name hn
    exact ⟨t, hPart.subset ht, hAt⟩

/-! ## Sources -/

theorem placed_of_parse (h : parse source = ⟨some f, []⟩) :
    (lex source).errors = [] ∧ f.Placed (lex source).tokens := by
  unfold Script.parse at h
  cases hParsed : parseTokens source.utf8ByteSize (lex source).tokens with
  | error e =>
    simp only [hParsed] at h
    exact absurd (congrArg Parsed.file h) (by simp)
  | ok g =>
    simp only [hParsed, Parsed.mk.injEq, Option.some.injEq, List.map_eq_nil_iff] at h
    obtain ⟨rfl, hErrors⟩ := h
    exact ⟨hErrors, parseTokens_placed hParsed⟩

theorem Spells.eq_of_identifier {name : String} {cs : List Char}
    (h : Spells (.identifier name) cs) : cs = name.toList := by
  cases h
  rfl

/-- The text at the place of a name among the tokens is the name. -/
theorem Identifier.PlacedAt.standsAt {t : Lexeme} (h : n.PlacedAt t)
    (ht : t ∈ (lex source).tokens) :
    ∃ front back, StandsAt source n.span front n.name.toList back := by
  have hText : source.toList = [] ++ source.toList := rfl
  obtain ⟨⟨texts, hTexts⟩, -⟩ := (cuts_lexFrom 0 source.toList).exists_texts hText rfl
  obtain ⟨text, -, front, back, hStands, hSpells, -⟩ := exists_of_forall₂ hTexts ht
  rw [h.1] at hSpells
  refine ⟨front, back, ?_⟩
  rw [h.2, ← hSpells.eq_of_identifier]
  exact hStands

/-- The places of a script in a source are exact. -/
structure SourceFile.HasExactPlaces (source : String) (f : SourceFile) : Prop where
  /-- The text of a term is read on its own as the term, with places that count from there. -/
  terms : ∀ x, f.HasNode x → ∃ front text back e,
    StandsAt source x.span front (String.toList text) back ∧ parseTerm text = some e ∧
      e.shift x.span.start = x
  /-- The parts of a term stand in it, in order and apart. -/
  parts : ∀ x, f.HasNode x → x.span.Holds x.partSpans
  /-- The text of a name is the name. -/
  names : ∀ n, f.HasName n → ∃ front back, StandsAt source n.span front n.name.toList back
  /-- The text of a definition is read as a script of just the definition. -/
  definitions : ∀ d ∈ f.definitions, ∃ front text back d' span,
    StandsAt source d.span front (String.toList text) back ∧
      parse text = ⟨some ⟨[d'], span⟩, []⟩ ∧ d'.shift d.span.start = d

/-- The text of a row of tokens that makes up a term is read as the term. -/
theorem Term.HasCore.exists_text {core : List Lexeme} (h : x.HasCore core row)
    (hErrors : (lex source).errors = []) (hRow : row <:+: (lex source).tokens) :
    ∃ front text back e, StandsAt source x.span front (String.toList text) back ∧
      parseTerm text = some e ∧ e.shift x.span.start = x := by
  obtain ⟨before, later, hTokens⟩ := h.within.trans hRow
  rw [List.append_assoc] at hTokens
  obtain ⟨front, back, text, row', hStands, hText, hSame⟩ :=
    exists_slice hErrors hTokens.symm h.ne_nil
  have hAlone := h.placed
  rw [hSame] at hAlone
  obtain ⟨e, hParsed, hShift⟩ := hAlone.parseTerm hText
  rw [← h.span] at hStands hShift
  exact ⟨front, text, back, e, hStands, hParsed, hShift⟩

/-- The text of a row of tokens that makes up a definition is read as the definition. -/
theorem Definition.Placed.exists_text (h : d.Placed row) (hErrors : (lex source).errors = [])
    (hRow : row <:+: (lex source).tokens) :
    ∃ front text back d' span, StandsAt source d.span front (String.toList text) back ∧
      Script.parse text = ⟨some ⟨[d'], span⟩, []⟩ ∧ d'.shift d.span.start = d := by
  obtain ⟨before, later, hTokens⟩ := hRow
  rw [List.append_assoc] at hTokens
  obtain ⟨front, back, text, row', hStands, hText, hSame⟩ :=
    exists_slice hErrors hTokens.symm h.ne_nil
  have hSpan : d.span = spanOf row := by
    cases h
    rfl
  rw [hSame] at h
  obtain ⟨d', span, hParsed, hShift⟩ := h.parse hText
  rw [← hSpan] at hStands hShift
  exact ⟨front, text, back, d', span, hStands, hParsed, hShift⟩

/-- **The places of a script that is read without faults are exact.** -/
theorem parse_places_exact (h : parse source = ⟨some f, []⟩) : f.HasExactPlaces source := by
  obtain ⟨hErrors, hPlaced⟩ := placed_of_parse h
  -- Every term has the tokens of its place among those of the source.
  have hCore : ∀ x, f.HasNode x → ∃ core row, x.HasCore core row ∧
      row <:+: (lex source).tokens := by
    intro x hx
    obtain ⟨k, row, hRow, hTerm⟩ := hPlaced.exists_node hx
    obtain ⟨core, hCore⟩ := hTerm.exists_core
    exact ⟨core, row, hCore, hRow⟩
  constructor
  · intro x hx
    obtain ⟨core, row, hCore, hRow⟩ := hCore x hx
    exact hCore.exists_text hErrors hRow
  · intro x hx
    obtain ⟨core, row, hCore, hRow⟩ := hCore x hx
    rw [hCore.span]
    exact hCore.parts.holds ((inOrder_lex source).sublist (hCore.within.trans hRow).sublist)
  · intro n hn
    obtain ⟨t, ht, hAt⟩ := hPlaced.exists_name hn
    exact hAt.standsAt ht
  · intro d hd
    obtain ⟨row, hRow, hDefinition⟩ := hPlaced.exists_definition hd
    exact hDefinition.exists_text hErrors hRow

/-- The syntax of `fn f(x) { return -((x) - x - x) as d(x) }`, on three lines. -/
def namedDifference : SourceFile :=
  let x (start : Nat) : Identifier := ⟨"x", ⟨start, start + 1⟩⟩
  let first : Term := .binary ⟨20, 27⟩ (.arith .sub) (.var (x 21)) (.var (x 26))
  let difference : Term := .binary ⟨20, 31⟩ (.arith .sub) first (.var (x 30))
  let value : Term := .named ⟨18, 40⟩ (.neg ⟨18, 32⟩ difference) ⟨"d", ⟨36, 37⟩⟩ (some [x 38])
  ⟨[⟨⟨"f", ⟨3, 4⟩⟩, [⟨x 5, [], ⟨5, 6⟩⟩], [.result ⟨11, 40⟩ [value]], ⟨0, 42⟩⟩], ⟨0, 42⟩⟩

/-- The first of two differences in brackets has the place of `(x) - x`. -/
theorem parse_places_exact_namedDifference :
    parse "fn f(x) \x7b\n return -((x) - x - x) as d(x)\n\x7d" = ⟨some namedDifference, []⟩ ∧
      namedDifference.HasExactPlaces "fn f(x) \x7b\n return -((x) - x - x) as d(x)\n\x7d" :=
  ⟨by cbv, parse_places_exact (by cbv)⟩

end ArrayEquations.Script
