import Mathlib.Algebra.Ring.Nat
import ArrayEquations.Proofs.ReadScripts
import ArrayEquations.Proofs.TermOutcomes

/-!
# ArrayEquations — one syntax for a row

A row of tokens with places makes up one term at most, and one definition: what each part of it is
made of is settled by the row. Where a part ends before a comma or a bracket, reading tells where,
since reading takes one row from the front. The operands of an operator are told apart by the number
of their tokens that mean something, which is that of the term. And a row in brackets is no
operation, as reading an atom from its front takes all of it.

## Main definitions

* `Token.weight`, `Term.weight` — the number of tokens that are neither commas nor brackets.
* `InBrackets` — a term in brackets.

## Main results

* `Term.Placed.unique`, `Definition.Placed.unique` — a row makes up one term, one definition.
-/

namespace ArrayEquations.Script

open Reading

variable {α : Type} {P : α → List Lexeme → Prop} {row row' rest rest' : List Lexeme}

/-! ## Where rows end -/

/-- An action takes one row from the front. -/
theorem Reading.Takes.row_eq {m : Reading α} {q : Token → Prop} {Q Q' : α → Prop}
    (h : Takes m (tokensOf row) q Q) (h' : Takes m (tokensOf row') q Q')
    (hRow : row ++ rest = row' ++ rest') (hRest : ∀ l ∈ rest.head?, ¬ q l.token)
    (hRest' : ∀ l ∈ rest'.head?, ¬ q l.token) : row = row' ∧ rest = rest' := by
  obtain ⟨a, reached, hRun, -⟩ := h row rest 0 rfl hRest
  obtain ⟨a', reached', hRun', -⟩ := h' row' rest' 0 rfl hRest'
  rw [hRow, hRun'] at hRun
  obtain rfl : rest' = rest := congrArg (fun r => r.2.rest) (Except.ok.inj hRun)
  exact ⟨List.append_cancel_right hRow, rfl⟩

/-- Where the rows of some kind end is settled, if one of certain tokens comes behind them. -/
def EndsBefore (P : α → List Lexeme → Prop) (q : Token → Prop) : Prop :=
  ∀ ⦃a a' row row' rest rest'⦄, P a row → P a' row' → row ++ rest = row' ++ rest' →
    (∀ l ∈ rest.head?, q l.token) → (∀ l ∈ rest'.head?, q l.token) → row = row' ∧ rest = rest'

/-- The rows begin with none of certain tokens, and do not lack a first one. -/
def OpensApart (P : α → List Lexeme → Prop) (q : Token → Prop) : Prop :=
  ∀ ⦃a row⦄, P a row → ∃ l later, row = l :: later ∧ ¬ q l.token

/-- Rows of items are rows of the same items. -/
theorem eq_of_forall₂ {as as' : List α} {rows : List (List Lexeme)} (h : List.Forall₂ P as rows)
    (h' : List.Forall₂ P as' rows)
    (hUnique : ∀ row ∈ rows, ∀ {a a'}, P a row → P a' row → a = a') : as = as' := by
  induction h generalizing as' with
  | nil => exact (List.forall₂_nil_right_iff.mp h').symm
  | cons ha _ ih =>
    obtain ⟨a', as', ha', hAs', rfl⟩ := List.forall₂_cons_right_iff.mp h'
    rw [hUnique _ List.mem_cons_self ha ha', ih hAs' fun row hRow => hUnique row
      (List.mem_cons_of_mem _ hRow)]

/-! ## Rows of items -/

/-- A comma or the closing mark. -/
def EndsItem (closing : Mark) (t : Token) : Prop := t = .mark .comma ∨ t = .mark closing

variable {closing : Mark} {rows rows' : List (List Lexeme)} {as as' : List α}

/-- The first item up to a closing mark has that mark behind it, or a comma and the others. -/
theorem Lexeme.enclosed_cons_iff {item : List Lexeme} :
    Lexeme.Enclosed closing (item :: rows) row ↔ ∃ (c : Lexeme) (later : List Lexeme),
      row = item ++ c :: later ∧ (c.token = .mark closing ∧ rows = [] ∧ later = [] ∨
        c.token = .mark .comma ∧ Lexeme.Enclosed closing rows later) := by
  constructor
  · intro h
    cases h with
    | last _ hClose => exact ⟨_, [], rfl, Or.inl ⟨hClose, rfl, rfl⟩⟩
    | more _ hComma h => exact ⟨_, _, rfl, Or.inr ⟨hComma, h⟩⟩
  · rintro ⟨c, later, rfl, ⟨hClose, rfl, rfl⟩ | ⟨hComma, h⟩⟩
    · exact .last item hClose
    · exact .more item hComma h

/-- What items there are up to a closing mark is settled by the row. -/
theorem Lexeme.Enclosed.unique (hClosing : closing ≠ .comma)
    (hEnds : EndsBefore P (EndsItem closing)) (hOpens : OpensApart P (· = .mark closing))
    (h : Lexeme.Enclosed closing rows row) (hItems : List.Forall₂ P as rows)
    (h' : Lexeme.Enclosed closing rows' row') (hItems' : List.Forall₂ P as' rows')
    (hRow : row ++ rest = row' ++ rest') : rows = rows' ∧ row = row' ∧ rest = rest' := by
  have hFirst : ∀ {a item c later rest}, P a item → c.token = Token.mark closing →
      c :: rest ≠ item ++ later := by
    intro a item c later rest ha hc hSame
    obtain ⟨l, more, rfl, hl⟩ := hOpens ha
    obtain ⟨rfl, -⟩ := List.cons.inj hSame
    exact hl hc
  have hApart : Token.mark closing ≠ Token.mark .comma := fun h => hClosing (Token.mark.inj h)
  induction rows generalizing as row rows' row' as' with
  | nil =>
    cases h with | close hc =>
    cases rows' with
    | nil =>
      cases h' with | close hc' =>
      obtain ⟨rfl, rfl⟩ := List.cons.inj hRow
      exact ⟨rfl, rfl, rfl⟩
    | cons item' rows' =>
      obtain ⟨a', _, ha', -, -⟩ := List.forall₂_cons_right_iff.mp hItems'
      obtain ⟨c', later', rfl, -⟩ := Lexeme.enclosed_cons_iff.mp h'
      rw [List.append_assoc] at hRow
      exact absurd hRow (hFirst ha' hc)
  | cons item rows ih =>
    obtain ⟨a, as, ha, hAs, rfl⟩ := List.forall₂_cons_right_iff.mp hItems
    obtain ⟨c, later, rfl, hLater⟩ := Lexeme.enclosed_cons_iff.mp h
    rw [List.append_assoc] at hRow
    cases rows' with
    | nil =>
      cases h' with | close hc' =>
      exact absurd hRow.symm (hFirst ha hc')
    | cons item' rows' =>
      obtain ⟨a', as', ha', hAs', rfl⟩ := List.forall₂_cons_right_iff.mp hItems'
      obtain ⟨c', later', rfl, hLater'⟩ := Lexeme.enclosed_cons_iff.mp h'
      rw [List.append_assoc] at hRow
      have hEnd : EndsItem closing c.token := hLater.symm.imp And.left And.left
      have hEnd' : EndsItem closing c'.token := hLater'.symm.imp And.left And.left
      -- The items end at the same place, and with the same token behind them they go on alike.
      obtain ⟨rfl, hBehind⟩ := hEnds ha ha' hRow (by simpa using hEnd) (by simpa using hEnd')
      obtain ⟨rfl, hMore⟩ := List.cons.inj hBehind
      rcases hLater with ⟨hc, rfl, rfl⟩ | ⟨hc, hEnclosed⟩ <;>
        rcases hLater' with ⟨hc', rfl, rfl⟩ | ⟨hc', hEnclosed'⟩
      · exact ⟨rfl, rfl, hMore⟩
      · exact absurd (hc.symm.trans hc') hApart
      · exact absurd (hc'.symm.trans hc) hApart
      · obtain ⟨rfl, rfl, rfl⟩ := ih hEnclosed hAs hEnclosed' hAs' hMore
        exact ⟨rfl, rfl, rfl⟩

/-- What items there are with commas between them is settled by the row. -/
theorem Lexeme.Separated.unique (hEnds : EndsBefore P (· = .mark .comma))
    (h : Lexeme.Separated rows row) (hItems : List.Forall₂ P as rows)
    (h' : Lexeme.Separated rows' row') (hItems' : List.Forall₂ P as' rows') (hRow : row = row') :
    rows = rows' := by
  induction h generalizing as rows' row' as' with
  | last item =>
    obtain ⟨a, _, ha, -, -⟩ := List.forall₂_cons_right_iff.mp hItems
    cases h' with
    | last => rw [hRow]
    | more item' hc' h' =>
      obtain ⟨a', _, ha', -, -⟩ := List.forall₂_cons_right_iff.mp hItems'
      -- The first item ends before a comma or at the end of the row, in both readings at one place.
      rw [← List.append_nil item] at hRow
      obtain ⟨-, hLater⟩ := hEnds ha ha' hRow (by simp) (by simp [hc'])
      exact absurd hLater (by simp)
  | @more item c items row hc _ ih =>
    obtain ⟨a, as, ha, hAs, rfl⟩ := List.forall₂_cons_right_iff.mp hItems
    cases h' with
    | last =>
      obtain ⟨a', _, ha', -, -⟩ := List.forall₂_cons_right_iff.mp hItems'
      rw [← List.append_nil row'] at hRow
      obtain ⟨-, hLater⟩ := hEnds ha ha' hRow (by simp [hc]) (by simp)
      exact absurd hLater (by simp)
    | more item' hc' h' =>
      obtain ⟨a', as', ha', hAs', rfl⟩ := List.forall₂_cons_right_iff.mp hItems'
      obtain ⟨rfl, hLater⟩ := hEnds ha ha' hRow (by simp [hc]) (by simp [hc'])
      obtain ⟨rfl, hMore⟩ := List.cons.inj hLater
      rw [ih hAs h' hAs' hMore]

/-- Line ends and what is behind them are told apart. -/
theorem Lexeme.AreLines.unique {lines lines' : List Lexeme} (h : Lexeme.AreLines lines)
    (h' : Lexeme.AreLines lines') (hRow : lines ++ rest = lines' ++ rest')
    (hRest : ∀ l ∈ rest.head?, l.token ≠ .newline)
    (hRest' : ∀ l ∈ rest'.head?, l.token ≠ .newline) : rest = rest' := by
  have hBehind := behindLines_newlines h hRest 0
  rw [hRow, behindLines_newlines h' hRest' 0] at hBehind
  exact (congrArg Cursor.rest hBehind).symm

/-- A token that ends a line of a body. -/
def EndsLine (t : Token) : Prop := t = .newline ∨ t = .mark .rightBrace

/-- Line ends come before the first item, and behind it what closes, or a line end and the
others. -/
theorem Lexeme.lined_cons_iff {closing : List Token} {item : List Lexeme} :
    Lexeme.Lined closing (item :: rows) row ↔ ∃ lines later : List Lexeme,
      Lexeme.AreLines lines ∧ row = lines ++ (item ++ later) ∧
        (tokensOf later = closing ∧ rows = [] ∨ ∃ (l : Lexeme) (more : List Lexeme),
          later = l :: more ∧ l.token = .newline ∧ Lexeme.Lined closing rows more) := by
  constructor
  · intro h
    cases h with
    | last hLines _ hClose => exact ⟨_, _, hLines, rfl, Or.inl ⟨hClose, rfl⟩⟩
    | more hLines _ hLine h => exact ⟨_, _, hLines, rfl, Or.inr ⟨_, _, rfl, hLine, h⟩⟩
  · rintro ⟨lines, later, hLines, rfl, ⟨hClose, rfl⟩ | ⟨l, more, rfl, hLine, h⟩⟩
    · exact .last hLines item hClose
    · exact .more hLines item hLine h

/-- What items there are on lines of their own up to a closing brace is settled by the row. -/
theorem Lexeme.Lined.unique (hEnds : EndsBefore P EndsLine) (hOpens : OpensApart P EndsLine)
    (h : Lexeme.Lined [.mark .rightBrace] rows row) (hItems : List.Forall₂ P as rows)
    (h' : Lexeme.Lined [.mark .rightBrace] rows' row') (hItems' : List.Forall₂ P as' rows')
    (hRow : row = row') : rows = rows' := by
  have hFirst : ∀ {a item later}, P a item →
      ∀ l ∈ (item ++ later : List Lexeme).head?, ¬ EndsLine l.token := by
    intro a item later ha l hl
    obtain ⟨l', more, rfl, hl'⟩ := hOpens ha
    obtain rfl : l' = l := Option.some.inj hl
    exact hl'
  -- Behind the line ends comes no other line end: the brace or the first token of an item.
  have hClosed : ∀ {row : List Lexeme}, tokensOf row = [.mark .rightBrace] →
      ∀ l ∈ row.head?, l.token = .mark .rightBrace := by
    intro row hClose l hl
    obtain ⟨b, rfl, hb⟩ := List.map_eq_singleton_iff.mp hClose
    obtain rfl : b = l := Option.some.inj hl
    exact hb
  have hNoLine : ∀ {row : List Lexeme}, tokensOf row = [.mark .rightBrace] →
      ∀ l ∈ row.head?, l.token ≠ .newline := fun hClose l hl hLine =>
    absurd ((hClosed hClose l hl).symm.trans hLine) (by decide)
  have hItem : ∀ {a item later}, P a item →
      ∀ l ∈ (item ++ later : List Lexeme).head?, l.token ≠ .newline :=
    fun ha l hl hLine => hFirst ha l hl (Or.inl hLine)
  have hApart : ∀ {a item later row}, P a item → tokensOf row = [.mark .rightBrace] →
      row ≠ (item ++ later : List Lexeme) := by
    intro a item later row ha hClose hSame
    obtain ⟨b, hRow, hb⟩ := List.map_eq_singleton_iff.mp hClose
    exact hFirst ha b (by rw [← hSame, hRow]; rfl) (Or.inr hb)
  induction rows generalizing as row rows' row' as' with
  | nil =>
    cases h with | close hLines hClose =>
    cases rows' with
    | nil => rfl
    | cons item' rows' =>
      obtain ⟨a', _, ha', -, -⟩ := List.forall₂_cons_right_iff.mp hItems'
      obtain ⟨lines', later', hLines', rfl, -⟩ := Lexeme.lined_cons_iff.mp h'
      exact absurd (hLines.unique hLines' hRow (hNoLine hClose) (hItem ha')) (hApart ha' hClose)
  | cons item rows ih =>
    obtain ⟨a, as, ha, hAs, rfl⟩ := List.forall₂_cons_right_iff.mp hItems
    obtain ⟨lines, later, hLines, rfl, hLater⟩ := Lexeme.lined_cons_iff.mp h
    cases rows' with
    | nil =>
      cases h' with | close hLines' hClose =>
      have hSame := hLines.unique hLines' hRow (hItem ha) (hNoLine hClose)
      exact absurd hSame.symm (hApart ha hClose)
    | cons item' rows' =>
      obtain ⟨a', as', ha', hAs', rfl⟩ := List.forall₂_cons_right_iff.mp hItems'
      obtain ⟨lines', later', hLines', rfl, hLater'⟩ := Lexeme.lined_cons_iff.mp h'
      have hSame := hLines.unique hLines' hRow (hItem ha) (hItem ha')
      have hEnd : ∀ {rows : List (List Lexeme)} {later : List Lexeme},
          (tokensOf later = [.mark .rightBrace] ∧ rows = [] ∨ ∃ (l : Lexeme) (more : List Lexeme),
            later = l :: more ∧ l.token = .newline ∧
              Lexeme.Lined [.mark .rightBrace] rows more) →
          ∀ l ∈ later.head?, EndsLine l.token := by
        rintro rows later (⟨hClose, -⟩ | ⟨l, more, rfl, hLine, -⟩) l' hl'
        · exact Or.inr (hClosed hClose l' hl')
        · obtain rfl : l = l' := Option.some.inj hl'
          exact Or.inl hLine
      -- The items end at the same place, and with the same token behind them they go on alike.
      obtain ⟨rfl, rfl⟩ := hEnds ha ha' hSame (hEnd hLater) (hEnd hLater')
      rcases hLater with ⟨hClose, rfl⟩ | ⟨l, more, rfl, hLine, hLined⟩ <;>
        rcases hLater' with ⟨hClose', rfl⟩ | ⟨l', more', hMore, hLine', hLined'⟩
      · rfl
      · exact absurd hLine' (hNoLine hClose l' (by rw [hMore]; rfl))
      · exact absurd hLine (hNoLine hClose' l rfl)
      · obtain ⟨rfl, rfl⟩ := List.cons.inj hMore
        rw [ih hLined hAs hLined' hAs' rfl]

/-! ## Weights -/

/-- Commas and brackets weigh nothing, and every other token as much. -/
def Token.weight : Token → Nat
  | .mark .comma | .mark .leftParen | .mark .rightParen => 0
  | .mark .leftBracket | .mark .rightBracket => 0
  | _ => 1

/-- The weight of a row. -/
def rowWeight (ts : List Token) : Nat := (ts.map Token.weight).sum

@[simp] theorem rowWeight_nil : rowWeight [] = 0 := rfl

@[simp] theorem rowWeight_cons (t : Token) (ts : List Token) :
    rowWeight (t :: ts) = t.weight + rowWeight ts := rfl

@[simp] theorem rowWeight_append (ts us : List Token) :
    rowWeight (ts ++ us) = rowWeight ts + rowWeight us := by
  rw [rowWeight, List.map_append, List.sum_append, rowWeight, rowWeight]

/-- How many of its tokens a term needs that are neither commas nor brackets. -/
def Term.weight : Term → Nat
  | .number _ _ | .var _ => 1
  | .dims _ ns => ns.length
  | .neg _ e => 1 + e.weight
  | .binary _ _ lhs rhs => lhs.weight + (1 + rhs.weight)
  | .call _ _ arguments => 1 + (arguments.map Term.weight).sum
  | .named _ value _ dependsOn => value.weight + (2 + (dependsOn.getD []).length)

theorem Term.weight_bare (e : Term) : e.bare.weight = e.weight := by
  induction e using Term.bare.induct with
  | case6 span callee arguments ih =>
    have hSame : arguments.map (Term.weight ∘ Term.bare) = arguments.map Term.weight :=
      List.map_congr_left ih
    rw [Term.bare, Term.weight, Term.weight, List.map_map, hSame]
  | case7 span value name dependsOn ih =>
    rw [Term.bare, Term.weight, Term.weight, ih]
    cases dependsOn <;> simp
  | _ => simp [Term.bare, Term.weight, *]

theorem rowWeight_of_enclosed {items : List (List Token)} {ts : List Token} {closing : Mark}
    (hClosing : (Token.mark closing).weight = 0) (h : Enclosed closing items ts) :
    rowWeight ts = (items.map rowWeight).sum := by
  induction h with
  | close => simp [hClosing]
  | last item => simp [hClosing]
  | more item _ ih => simp [ih, Token.weight]

theorem rowWeight_of_separated {items : List (List Token)} {ts : List Token}
    (h : Separated items ts) : rowWeight ts = (items.map rowWeight).sum := by
  induction h with
  | last item => simp
  | more item _ ih => simp [ih, Token.weight]

/-- **A row weighs as much as its term.** -/
theorem Term.Written.rowWeight_eq {e : Term} {l : Strength} {ts : List Token} {spare : Prop}
    (h : e.Written spare l ts) : rowWeight ts = e.weight := by
  induction h with
  | @number l span x t h =>
    cases t with
    | int | decimal => rw [Term.weight]; rfl
    | _ => exact absurd h (by simp [Token.number?])
  | dims h =>
    rw [rowWeight_cons, rowWeight_of_enclosed rfl h, Term.weight]
    simp [Function.comp_def, Token.weight]
  | var => rw [Term.weight]; rfl
  | @call l span callee arguments rows ts hLength h hRow ih =>
    have hRows : List.Forall₂ (fun e row => rowWeight row = Term.weight e) arguments rows :=
      List.forall₂_iff_zip.mpr ⟨hLength, fun hp => ih _ hp⟩
    -- An argument weighs what its row weighs.
    have hSums : rows.map rowWeight = arguments.map Term.weight := by
      clear hLength h hRow ih
      induction hRows with
      | nil => rfl
      | cons hOne _ ih => rw [List.map_cons, List.map_cons, hOne, ih]
    rw [rowWeight_cons, rowWeight_cons, rowWeight_of_enclosed rfl hRow, hSums, Term.weight]
    simp [Token.weight]
  | neg _ _ ih => rw [rowWeight_cons, ih, Term.weight]; rfl
  | @binary l span op lhs rhs ts us _ _ _ ihLeft ihRight =>
    rw [rowWeight_append, rowWeight_cons, ihLeft, ihRight, Term.weight]
    rcases op with (_ | _ | _ | _ | _) | _ | (_ | _ | _ | _ | _ | _) <;> rfl
  | @named l span value name dependsOn ts us _ _ hDependsOn ih =>
    have hNames : rowWeight us = (dependsOn.getD []).length := by
      cases hDependsOn with
      | absent => rfl
      | names h => simp [rowWeight_of_separated h, Function.comp_def, Token.weight]
    rw [rowWeight_append, rowWeight_cons, rowWeight_cons, ih, hNames, Term.weight]
    simp only [Token.weight]
    omega
  | brackets _ _ ih => simp [ih, Token.weight]

/-- Where a token that weighs something comes behind a row of a weight is settled. -/
theorem eq_of_rowWeight_eq {t t' : Lexeme} (hRow : row ++ t :: rest = row' ++ t' :: rest')
    (hWeight : rowWeight (tokensOf row) = rowWeight (tokensOf row'))
    (ht : 0 < t.token.weight) (ht' : 0 < t'.token.weight) :
    row = row' ∧ t = t' ∧ rest = rest' := by
  -- What one row has more than the other begins with `t` or `t'`, and so it weighs something.
  have hNil : ∀ {row ds rest rest' : List Lexeme} {t : Lexeme}, t :: rest = ds ++ rest' →
      rowWeight (tokensOf row) = rowWeight (tokensOf (row ++ ds)) → 0 < t.token.weight →
        ds = [] := by
    intro row ds rest rest' t hSame hWeight ht
    cases ds with
    | nil => rfl
    | cons d ds =>
      obtain ⟨rfl, -⟩ := List.cons.inj hSame
      rw [tokensOf_append, rowWeight_append, tokensOf_cons, rowWeight_cons] at hWeight
      omega
  rcases List.append_eq_append_iff.mp hRow with ⟨ds, rfl, hRest⟩ | ⟨ds, rfl, hRest⟩
  · obtain rfl := hNil hRest hWeight ht
    obtain ⟨rfl, rfl⟩ := List.cons.inj hRest
    exact ⟨(List.append_nil row).symm, rfl, rfl⟩
  · obtain rfl := hNil hRest hWeight.symm ht'
    obtain ⟨rfl, rfl⟩ := List.cons.inj hRest
    exact ⟨List.append_nil row', rfl, rfl⟩

/-! ## Brackets -/

variable {e e' : Term} {l l' : Strength}

/-- The terms that a row makes up look the same. -/
theorem Term.Placed.bare_eq (h : e.Placed l row) (h' : e'.Placed l' row) : e.bare = e'.bare := by
  have hTakes : ∀ {e : Term} {l : Strength}, e.Placed l row →
      Yields term .naming e (tokensOf row) :=
    fun h => takes_term (h.mono (Strength.naming_le _)).written
  obtain ⟨a, _, hRun, ha⟩ := hTakes h row [] 0 rfl (by simp)
  obtain ⟨a', _, hRun', ha'⟩ := hTakes h' row [] 0 rfl (by simp)
  rw [hRun] at hRun'
  obtain rfl : a = a' := congrArg Prod.fst (Except.ok.inj hRun')
  exact ha.symm.trans ha'

/-- No operator and no naming goes on with an atom. -/
theorem not_goesOn_atom {op : BinaryOp} : ¬ GoesOn .atom (.mark op.mark) := by
  rw [goesOn_mark]
  rcases op with (_ | _ | _ | _ | _) | _ | (_ | _ | _ | _ | _ | _) <;> decide

theorem not_goesOn_atom_naming : ¬ GoesOn .atom (.keyword .naming) := by
  rintro (h | ⟨_, _, h⟩ | ⟨h, _⟩)
  · exact absurd h (by simp)
  · exact absurd h (by simp)
  · exact absurd h (by decide)

/-- A term begins with a minus sign, or with an atom that nothing goes on with. -/
theorem Term.Placed.begins (h : e.Placed l row) :
    (∃ t later, row = t :: later ∧ t.token = .mark .minus) ∨
      ∃ (a : Term) (first later : List Lexeme), row = first ++ later ∧ a.Placed .atom first ∧
        ∀ t ∈ later.head?, ¬ GoesOn .atom t.token := by
  -- An atom that is the whole of an operand ends before the operator behind it.
  have hBefore : ∀ {later more : List Lexeme} {t : Lexeme}, ¬ GoesOn .atom t.token →
      (∀ t ∈ later.head?, ¬ GoesOn .atom t.token) →
      ∀ t' ∈ (later ++ t :: more).head?, ¬ GoesOn .atom t'.token := by
    intro later more t ht hLater
    cases later with
    | nil =>
      rintro t' ht'
      obtain rfl : t = t' := Option.some.inj ht'
      exact ht
    | cons => exact hLater
  induction h with
  | number h => exact Or.inr ⟨_, _, [], (List.append_nil _).symm, .number h, by simp⟩
  | dims h => exact Or.inr ⟨_, _, [], (List.append_nil _).symm, .dims h, by simp⟩
  | var h => exact Or.inr ⟨_, _, [], (List.append_nil _).symm, .var h, by simp⟩
  | call hCallee hOpen hLength h hRow =>
    exact Or.inr ⟨_, _, [], (List.append_nil _).symm, .call hCallee hOpen hLength h hRow, by simp⟩
  | brackets hOpen h hClose =>
    exact Or.inr ⟨_, _, [], (List.append_nil _).symm, .brackets hOpen h hClose, by simp⟩
  | neg _ hMinus => exact Or.inl ⟨_, _, rfl, hMinus⟩
  | @binary l op lhs rhs t left right _ _ hOp _ ihLeft =>
    rcases ihLeft with ⟨u, later, rfl, hu⟩ | ⟨a, first, later, rfl, ha, hLater⟩
    · exact Or.inl ⟨u, _, rfl, hu⟩
    · refine Or.inr ⟨a, first, _, List.append_assoc _ _ _, ha, ?_⟩
      exact hBefore (by rw [hOp]; exact not_goesOn_atom) hLater
  | @named l value name dependsOn t n row later _ _ hNaming _ _ ih =>
    rcases ih with ⟨u, later, rfl, hu⟩ | ⟨a, first, later, rfl, ha, hLater⟩
    · exact Or.inl ⟨u, _, rfl, hu⟩
    · refine Or.inr ⟨a, first, _, List.append_assoc _ _ _, ha, ?_⟩
      exact hBefore (by rw [hNaming]; exact not_goesOn_atom_naming) hLater

/-- A term in brackets. -/
def InBrackets (row : List Lexeme) : Prop :=
  ∃ (e : Term) (o c : Lexeme) (inside : List Lexeme), row = o :: (inside ++ [c]) ∧
    o.token = .mark .leftParen ∧ c.token = .mark .rightParen ∧ e.Placed .naming inside

/-- Reading an atom takes all of a row in brackets, and so nothing goes on with a first part. -/
theorem InBrackets.not_goesOn {left later : List Lexeme} {t : Lexeme}
    (h : InBrackets (left ++ t :: later)) (hLeft : e.Placed l left)
    (ht : ¬ GoesOn .atom t.token) : False := by
  obtain ⟨y, o, c, inside, hRow, hOpen, hClose, hInside⟩ := h
  rcases hLeft.begins with ⟨u, more, rfl, hu⟩ | ⟨a, first, more, rfl, ha, hMore⟩
  · obtain ⟨rfl, -⟩ := List.cons.inj hRow
    exact absurd (hu.symm.trans hOpen) (by decide)
  · -- An atom is read from the front, which takes `first` on the one hand and all on the other.
    have hWhole : y.Placed .atom (first ++ (more ++ t :: later)) := by
      rw [← List.append_assoc, hRow]
      exact .brackets hOpen hInside hClose
    have hTakes : ∀ {e : Term} {row : List Lexeme}, e.Placed .atom row →
        row.length ≤ (first ++ (more ++ t :: later)).length →
        Yields (atom (termWithin (first ++ (more ++ t :: later)).length)) .atom e (tokensOf row) :=
      fun he hLength => (reads_written he.written _ (by
        rw [tokensOf, List.length_map]
        exact Nat.le_succ_of_le hLength)).yields
    have hFirst := hTakes ha (by rw [List.length_append]; exact Nat.le_add_right _ _)
    have hAll := hTakes hWhole (Nat.le_refl _)
    have hNext : ∀ u ∈ (more ++ t :: later).head?, ¬ GoesOn .atom u.token := by
      cases more with
      | nil =>
        rintro u hu
        obtain rfl : t = u := Option.some.inj hu
        exact ht
      | cons => exact hMore
    obtain ⟨-, hNil⟩ := hFirst.row_eq hAll (List.append_nil _).symm hNext (by simp)
    exact absurd hNil (by simp)

/-- What a row in brackets makes up is what the row inside does. -/
theorem Term.Placed.inside {o c : Lexeme} {inside : List Lexeme}
    (h : e.Placed l (o :: (inside ++ [c]))) (hBrackets : InBrackets (o :: (inside ++ [c]))) :
    e.Placed .naming inside := by
  obtain ⟨y, o', c', inside', hRow, hOpen, -, -⟩ := id hBrackets
  obtain ⟨rfl, -⟩ := List.cons.inj hRow
  generalize hWhole : o :: (inside ++ [c]) = row at h hBrackets
  -- No other term begins with an opening bracket that its last token closes.
  cases h with
  | number h =>
    obtain ⟨rfl, -⟩ := List.cons.inj hWhole
    exact absurd h (by rw [hOpen]; simp [Token.number?])
  | dims h =>
    cases h with
    | list h =>
      obtain ⟨rfl, -⟩ := List.cons.inj hWhole
      exact absurd (hOpen.symm.trans h) (by decide)
  | var h =>
    obtain ⟨rfl, -⟩ := List.cons.inj hWhole
    exact absurd (hOpen.symm.trans h.1) (by simp)
  | call h =>
    obtain ⟨rfl, -⟩ := List.cons.inj hWhole
    exact absurd (hOpen.symm.trans h.1) (by simp)
  | neg _ h =>
    obtain ⟨rfl, -⟩ := List.cons.inj hWhole
    exact absurd (hOpen.symm.trans h) (by decide)
  | binary _ hLeft hOp =>
    exact (hBrackets.not_goesOn hLeft (by rw [hOp]; exact not_goesOn_atom)).elim
  | named _ h hNaming =>
    exact (hBrackets.not_goesOn h (by rw [hNaming]; exact not_goesOn_atom_naming)).elim
  | brackets _ h =>
    obtain ⟨rfl, hSame⟩ := List.cons.inj hWhole
    obtain ⟨rfl, -⟩ := List.append_inj' hSame rfl
    exact h

/-! ## Names and numbers -/

theorem EndsBefore.mono {q q' : Token → Prop} (h : EndsBefore P q) (hImp : ∀ t, q' t → q t) :
    EndsBefore P q' := fun _ _ _ _ _ _ ha ha' hRow hRest hRest' =>
  h ha ha' hRow (fun l hl => hImp _ (hRest l hl)) fun l hl => hImp _ (hRest' l hl)

/-- Rows of one token end wherever they stand. -/
theorem endsBefore_of_single {q : Token → Prop} (h : ∀ {a row}, P a row → ∃ l, row = [l]) :
    EndsBefore P q := by
  intro a a' row row' rest rest' ha ha' hRow _ _
  obtain ⟨l, rfl⟩ := h ha
  obtain ⟨l', rfl⟩ := h ha'
  obtain ⟨rfl, rfl⟩ := List.cons.inj hRow
  exact ⟨rfl, rfl⟩

variable {n n' : Identifier} {t : Lexeme}

theorem Identifier.PlacedAt.unique (h : n.PlacedAt t) (h' : n'.PlacedAt t) : n = n' := by
  obtain ⟨name, span⟩ := n
  obtain ⟨name', span'⟩ := n'
  obtain rfl : name = name' := Token.identifier.inj (h.1.symm.trans h'.1)
  obtain rfl : span = span' := h.2.trans h'.2.symm
  rfl

theorem Identifier.Placed.unique (h : n.Placed row) (h' : n'.Placed row) : n = n' := by
  obtain ⟨t, rfl, hAt⟩ := h
  obtain ⟨t', hRow, hAt'⟩ := h'
  obtain ⟨rfl, -⟩ := List.cons.inj hRow
  exact hAt.unique hAt'

theorem IsNatural.unique {n n' : Nat} (h : IsNatural n row) (h' : IsNatural n' row) : n = n' := by
  obtain ⟨t, rfl, hAt⟩ := h
  obtain ⟨t', hRow, hAt'⟩ := h'
  obtain ⟨rfl, -⟩ := List.cons.inj hRow
  exact Token.int.inj (hAt.symm.trans hAt')

theorem DimsPlaced.unique {ns ns' : List Nat} (h : DimsPlaced ns row) (h' : DimsPlaced ns' row')
    (hRow : row = row') : ns = ns' := by
  have hEnds : EndsBefore IsNatural (EndsItem .rightBracket) := by
    refine endsBefore_of_single ?_
    rintro n row ⟨l, hRow, -⟩
    exact ⟨l, hRow⟩
  have hOpens : OpensApart IsNatural (· = .mark .rightBracket) := by
    rintro n _ ⟨l, rfl, hToken⟩
    exact ⟨l, [], rfl, by simp [hToken]⟩
  cases h with
  | @list _ list _ _ hItems hList =>
    cases h' with
    | @list _ list' _ _ hItems' hList' =>
      obtain ⟨-, hSame⟩ := List.cons.inj hRow
      have hWhole : list ++ [] = list' ++ [] := congrArg (· ++ []) hSame
      obtain ⟨rfl, -⟩ :=
        hList.unique (by decide) hEnds hOpens hItems hList' hItems' hWhole
      exact eq_of_forall₂ hItems hItems' fun _ _ _ _ => IsNatural.unique

theorem DependenciesPlaced.unique {dependsOn dependsOn' : Option (List Identifier)}
    (h : DependenciesPlaced dependsOn row) (h' : DependenciesPlaced dependsOn' row')
    (hRow : row = row') : dependsOn = dependsOn' := by
  -- A name is one token, so that it ends where it ends in any reading.
  have hEnds : EndsBefore Identifier.Placed (· = .mark .comma) := by
    refine endsBefore_of_single ?_
    rintro n row ⟨l, hRow, -⟩
    exact ⟨l, hRow⟩
  cases h with
  | absent =>
    cases h' with
    | absent => rfl
    | names => exact absurd hRow (by simp)
  | names _ hNames hList _ =>
    cases h' with
    | absent => exact absurd hRow (by simp)
    | names _ hNames' hList' _ =>
      obtain ⟨-, hSame⟩ := List.cons.inj hRow
      obtain ⟨hSame, -⟩ := List.append_inj' hSame rfl
      obtain rfl := hList.unique hEnds hNames hList' hNames' hSame
      rw [eq_of_forall₂ hNames hNames' fun _ _ _ _ => Identifier.Placed.unique]

/-! ## Terms -/

theorem endsBefore_term : EndsBefore (Term.Placed .naming) fun t => endsTerm t = true :=
  fun _ _ _ _ _ _ h h' hRow hRest hRest' =>
    (takes_term h.written).row_eq (takes_term h'.written) hRow
      (fun l hl => not_goesOn (hRest l hl)) fun l hl => not_goesOn (hRest' l hl)

theorem opensApart_term {m : Mark} (hMark : opensTerm (.mark m) = false) :
    OpensApart (Term.Placed .naming) (· = .mark m) := by
  intro e row h
  obtain ⟨t, us, hRow, ht⟩ := opensTerm_of_written h.written
  obtain ⟨l, later, rfl, rfl, -⟩ := List.map_eq_cons_iff.mp hRow
  refine ⟨l, later, rfl, fun hToken => ?_⟩
  rw [hToken, hMark] at ht
  exact absurd ht (by decide)

theorem Lexeme.Enclosed.length_lt (h : Lexeme.Enclosed closing rows row) :
    ∀ item ∈ rows, item.length < row.length := by
  intro item hItem
  have hLess := h.written.length_lt _ (List.mem_map_of_mem hItem)
  rwa [tokensOf, tokensOf, List.length_map, List.length_map] at hLess

/-- **A row makes up one term.** -/
theorem Term.Placed.unique (h : e.Placed l row) (h' : e'.Placed l' row) : e = e' := by
  induction hLength : row.length using Nat.strongRecOn generalizing e e' l l' row with
  | _ n ih =>
    have hInner : ∀ {part : List Lexeme}, part.length < row.length → ∀ {a a' : Term}
        {k k' : Strength}, a.Placed k part → a'.Placed k' part → a = a' :=
      fun hLess _ _ _ _ ha ha' => ih _ (hLength ▸ hLess) ha ha' rfl
    -- Both terms are of one form and have the place of the row. What is left are their parts.
    have hBare := h.bare_eq h'
    by_cases hBrackets : InBrackets row
    · obtain ⟨y, o, c, inside, rfl, -⟩ := id hBrackets
      have hLess : inside.length < (o :: (inside ++ [c])).length := by
        rw [List.length_cons, List.length_append]
        omega
      exact hInner hLess (h.inside hBrackets) (h'.inside hBrackets)
    generalize hRow : row = row' at h'
    cases h with
    | brackets hOpen h hClose => exact absurd ⟨_, _, _, _, rfl, hOpen, hClose, h⟩ hBrackets
    | @number _ t x h =>
      cases h' with
      | brackets hOpen h' hClose => exact absurd ⟨_, _, _, _, hRow, hOpen, hClose, h'⟩ hBrackets
      | number h' =>
        obtain ⟨rfl, -⟩ := List.cons.inj hRow
        rw [Option.some.inj (h.symm.trans h')]
      | _ => exact absurd hBare (by simp [Term.bare])
    | dims h =>
      cases h' with
      | brackets hOpen h' hClose => exact absurd ⟨_, _, _, _, hRow, hOpen, hClose, h'⟩ hBrackets
      | dims h' => rw [h.unique h' hRow, hRow]
      | _ => exact absurd hBare (by simp [Term.bare])
    | var h =>
      cases h' with
      | brackets hOpen h' hClose => exact absurd ⟨_, _, _, _, hRow, hOpen, hClose, h'⟩ hBrackets
      | var h' =>
        obtain ⟨rfl, -⟩ := List.cons.inj hRow
        rw [h.unique h']
      | _ => exact absurd hBare (by simp [Term.bare])
    | @call _ callee arguments t o rows list hCallee hOpen hArguments h hList =>
      cases h' with
      | brackets hOpen h' hClose => exact absurd ⟨_, _, _, _, hRow, hOpen, hClose, h'⟩ hBrackets
      | @call _ callee' arguments' t' o' rows' list' hCallee' hOpen' hArguments' h' hList' =>
        obtain ⟨rfl, hSame⟩ := List.cons.inj hRow
        obtain ⟨rfl, rfl⟩ := List.cons.inj hSame
        have hItems := List.forall₂_iff_zip.mpr ⟨hArguments, fun hp => h _ hp⟩
        have hItems' := List.forall₂_iff_zip.mpr ⟨hArguments', fun hp => h' _ hp⟩
        have hEnds : EndsBefore (Term.Placed .naming) (EndsItem .rightParen) :=
          endsBefore_term.mono fun t ht => by rcases ht with rfl | rfl <;> rfl
        have hOpens : OpensApart (Term.Placed .naming) (· = .mark .rightParen) :=
          opensApart_term rfl
        obtain ⟨rfl, -⟩ := hList.unique (by decide) hEnds hOpens hItems hList' hItems'
          (rfl : list ++ [] = list ++ [])
        have hUnique : ∀ item ∈ rows, ∀ {a a' : Term}, a.Placed .naming item →
            a'.Placed .naming item → a = a' := by
          intro item hItem a a'
          have hLess := hList.length_lt item hItem
          exact hInner (by rw [List.length_cons, List.length_cons]; omega)
        rw [hCallee.unique hCallee', eq_of_forall₂ hItems hItems' hUnique]
      | _ => exact absurd hBare (by simp [Term.bare])
    | neg hStrength hMinus h =>
      cases h' with
      | brackets hOpen h' hClose => exact absurd ⟨_, _, _, _, hRow, hOpen, hClose, h'⟩ hBrackets
      | neg _ _ h' =>
        obtain ⟨rfl, rfl⟩ := List.cons.inj hRow
        rw [hInner (Nat.lt_succ_self _) h h']
      | _ => exact absurd hBare (by simp [Term.bare])
    | @binary _ op lhs rhs t left right hStrength hLeft hOp hRight =>
      cases h' with
      | brackets hOpen h' hClose => exact absurd ⟨_, _, _, _, hRow, hOpen, hClose, h'⟩ hBrackets
      | @binary _ op' lhs' rhs' t' left' right' hStrength' hLeft' hOp' hRight' =>
        -- The left operands weigh the same, so the operator is the same token of the row.
        rw [Term.bare, Term.bare, Term.binary.injEq] at hBare
        obtain ⟨-, rfl, hBareLeft, hBareRight⟩ := hBare
        have hWeight : rowWeight (tokensOf left) = rowWeight (tokensOf left') := by
          rw [hLeft.written.rowWeight_eq, hLeft'.written.rowWeight_eq, ← Term.weight_bare,
            hBareLeft, Term.weight_bare]
        have hPos : 0 < (Token.mark op.mark).weight := by
          rcases op with (_ | _ | _ | _ | _) | _ | (_ | _ | _ | _ | _ | _) <;> decide
        obtain ⟨rfl, rfl, rfl⟩ :=
          eq_of_rowWeight_eq hRow hWeight (by rwa [hOp]) (by rwa [hOp'])
        rw [List.length_append, List.length_cons] at hInner
        rw [hInner (by omega) hLeft hLeft', hInner (by omega) hRight hRight']
      | _ => exact absurd hBare (by simp [Term.bare])
    | @named _ value name dependsOn t m row later hStrength h hNaming hName hDependsOn =>
      cases h' with
      | brackets hOpen h' hClose => exact absurd ⟨_, _, _, _, hRow, hOpen, hClose, h'⟩ hBrackets
      | @named _ value' _ _ t' m' row' later' _ h' hNaming' hName' hDependsOn' =>
        rw [Term.bare, Term.bare, Term.named.injEq] at hBare
        have hWeight : rowWeight (tokensOf row) = rowWeight (tokensOf row') := by
          rw [h.written.rowWeight_eq, h'.written.rowWeight_eq, ← Term.weight_bare, hBare.2.1,
            Term.weight_bare]
        obtain ⟨rfl, rfl, hSame⟩ :=
          eq_of_rowWeight_eq hRow hWeight (by rw [hNaming]; decide) (by rw [hNaming']; decide)
        obtain ⟨rfl, rfl⟩ := List.cons.inj hSame
        rw [List.length_append] at hInner
        rw [hInner (by simp) h h', hName.unique hName', hDependsOn.unique hDependsOn' rfl]
      | _ => exact absurd hBare (by simp [Term.bare])

/-! ## Definitions -/

theorem endsBefore_parameter : EndsBefore Parameter.Placed (EndsItem .rightParen) := by
  have hApart : ∀ {t : Token}, EndsItem .rightParen t → ¬ t = .mark .colon := by
    rintro t (rfl | rfl) <;> decide
  exact fun _ _ _ _ _ _ h h' hRow hRest hRest' =>
    (takes_parameter h.written).row_eq (takes_parameter h'.written) hRow
      (fun l hl => hApart (hRest l hl)) fun l hl => hApart (hRest' l hl)

theorem opensApart_parameter : OpensApart Parameter.Placed (· = .mark .rightParen) := by
  intro p row h
  cases h with
  | scalar h => exact ⟨_, _, rfl, by simp [h.1]⟩
  | array h => exact ⟨_, _, rfl, by simp [h.1]⟩

theorem Parameter.Placed.unique {p p' : Parameter} (h : p.Placed row) (h' : p'.Placed row')
    (hRow : row = row') : p = p' := by
  cases h with
  | scalar h =>
    cases h' with
    | scalar h' =>
      obtain ⟨rfl, -⟩ := List.cons.inj hRow
      rw [h.unique h']
    | array => exact absurd hRow (by simp)
  | array h _ hShape =>
    cases h' with
    | scalar => exact absurd hRow (by simp)
    | array h' _ hShape' =>
      obtain ⟨rfl, hBehind⟩ := List.cons.inj hRow
      obtain ⟨rfl, hSame⟩ := List.cons.inj hBehind
      rw [h.unique h', hShape.unique hShape' hSame, hSame]

theorem endsBefore_statement : EndsBefore Statement.Placed EndsLine := by
  have hApart : ∀ {t : Token}, EndsLine t → ¬ GoesOnStatement t := by
    rintro t (rfl | rfl) (h | h)
    · exact not_goesOn rfl h
    · exact absurd h (by decide)
    · exact not_goesOn rfl h
    · exact absurd h (by decide)
  exact fun _ _ _ _ _ _ h h' hRow hRest hRest' =>
    (takes_statement h.written).row_eq (takes_statement h'.written) hRow
      (fun l hl => hApart (hRest l hl)) fun l hl => hApart (hRest' l hl)

theorem opensApart_statement : OpensApart Statement.Placed EndsLine := by
  intro s row h
  cases h with
  | bind hBind => exact ⟨_, _, rfl, by simp [hBind, EndsLine]⟩
  | result hResult => exact ⟨_, _, rfl, by simp [hResult, EndsLine]⟩

theorem Statement.Placed.unique {s s' : Statement} (h : s.Placed row) (h' : s'.Placed row')
    (hRow : row = row') : s = s' := by
  cases h with
  | bind hBind hName hEquals h =>
    cases h' with
    | bind hBind' hName' hEquals' h' =>
      obtain ⟨rfl, hBehind⟩ := List.cons.inj hRow
      obtain ⟨rfl, hSame⟩ := List.cons.inj hBehind
      obtain ⟨rfl, rfl⟩ := List.cons.inj hSame
      rw [hName.unique hName', h.unique h']
    | result hResult =>
      obtain ⟨rfl, -⟩ := List.cons.inj hRow
      exact absurd (hBind.symm.trans hResult) (by decide)
  | result hResult h hList =>
    cases h' with
    | bind hBind =>
      obtain ⟨rfl, -⟩ := List.cons.inj hRow
      exact absurd (hBind.symm.trans hResult) (by decide)
    | result _ h' hList' =>
      obtain ⟨rfl, rfl⟩ := List.cons.inj hRow
      have hEnds : EndsBefore (Term.Placed .naming) (· = .mark .comma) :=
        endsBefore_term.mono fun t ht => by rw [ht]; rfl
      obtain rfl := hList.unique hEnds h hList' h' rfl
      rw [eq_of_forall₂ h h' fun _ _ _ _ => Term.Placed.unique]

theorem BodyPlaced.unique {body body' : List Statement} (h : BodyPlaced body row)
    (h' : BodyPlaced body' row) : body = body' := by
  cases h with
  | lines _ h hLines =>
    cases h' with
    | lines _ h' hLines' =>
      obtain rfl :=
        hLines.unique endsBefore_statement opensApart_statement h hLines' h' rfl
      exact eq_of_forall₂ h h' fun _ _ _ _ hs hs' => hs.unique hs' rfl

/-- **A row makes up one definition.** -/
theorem Definition.Placed.unique {d d' : Definition} (h : d.Placed row) (h' : d'.Placed row')
    (hRow : row = row') : d = d' := by
  cases h with
  | parts _ hName _ hParameters hList hBody =>
    cases h' with
    | parts _ hName' _ hParameters' hList' hBody' =>
      obtain ⟨rfl, hBehind⟩ := List.cons.inj hRow
      obtain ⟨rfl, hOpened⟩ := List.cons.inj hBehind
      obtain ⟨rfl, hSame⟩ := List.cons.inj hOpened
      obtain ⟨rfl, rfl, rfl⟩ := hList.unique (by decide) endsBefore_parameter opensApart_parameter
        hParameters hList' hParameters' hSame
      rw [hName.unique hName', hBody.unique hBody',
        eq_of_forall₂ hParameters hParameters' fun _ _ _ _ hp hp' => hp.unique hp' rfl]

end ArrayEquations.Script
