import ArrayEquations.Proofs.WrittenScripts
import ArrayEquations.Script.Parser

/-!
# ArrayEquations — scripts with their places

The rows of tokens with places that make up a script, where every part of the syntax has the place
of its own row: from the start of the first token to the end of the last one. Only a term in
brackets does not count these.

## Main definitions

* `endOf`, `spanOf` — where a row ends, and its place.
* `Lexeme.Enclosed`, `Lexeme.Separated`, `Lexeme.Lined` — rows of items.
* `Term.Placed`, `Definition.Placed`, `SourceFile.Placed` — the rows of the parts of a script.

## Main results

* `Term.Placed.written`, `SourceFile.Placed.written` — without places these rows are written ones.
-/

namespace ArrayEquations.Script

/-! ## Places of rows -/

/-- Where the last token of a row ends; a place before the row, if it is empty. -/
def endOf : List Lexeme → Nat → Nat
  | [], reached => reached
  | l :: row, _ => endOf row l.span.stop

/-- The place of a row. -/
def spanOf : List Lexeme → Span
  | [] => ⟨0, 0⟩
  | l :: row => ⟨l.span.start, endOf row l.span.stop⟩

@[simp] theorem endOf_nil (reached : Nat) : endOf [] reached = reached := rfl

@[simp] theorem endOf_cons (l : Lexeme) (row : List Lexeme) (reached : Nat) :
    endOf (l :: row) reached = endOf row l.span.stop := rfl

@[simp] theorem endOf_append (row later : List Lexeme) (reached : Nat) :
    endOf (row ++ later) reached = endOf later (endOf row reached) := by
  induction row generalizing reached with
  | nil => rfl
  | cons l row ih => exact ih l.span.stop

/-- The tokens of a row. -/
def tokensOf (row : List Lexeme) : List Token := row.map (·.token)

@[simp] theorem tokensOf_nil : tokensOf [] = [] := rfl

@[simp] theorem tokensOf_cons (l : Lexeme) (row : List Lexeme) :
    tokensOf (l :: row) = l.token :: tokensOf row := rfl

@[simp] theorem tokensOf_append (row later : List Lexeme) :
    tokensOf (row ++ later) = tokensOf row ++ tokensOf later := List.map_append

/-! ## Rows of items -/

namespace Lexeme

/-- Items with commas between them up to a closing mark; a comma may stand before it. -/
inductive Enclosed (closing : Mark) : List (List Lexeme) → List Lexeme → Prop
  | close {c : Lexeme} (hClose : c.token = .mark closing) : Enclosed closing [] [c]
  | last (item : List Lexeme) {c : Lexeme} (hClose : c.token = .mark closing) :
      Enclosed closing [item] (item ++ [c])
  | more (item : List Lexeme) {c : Lexeme} {items : List (List Lexeme)} {row : List Lexeme}
      (hComma : c.token = .mark .comma) (h : Enclosed closing items row) :
      Enclosed closing (item :: items) (item ++ c :: row)

/-- Items with commas between them, one at least. -/
inductive Separated : List (List Lexeme) → List Lexeme → Prop
  | last (item : List Lexeme) : Separated [item] item
  | more (item : List Lexeme) {c : Lexeme} {items : List (List Lexeme)} {row : List Lexeme}
      (hComma : c.token = .mark .comma) (h : Separated items row) :
      Separated (item :: items) (item ++ c :: row)

/-- Nothing but line ends. -/
def AreLines (row : List Lexeme) : Prop := ∀ l ∈ row, l.token = .newline

/-- Items on lines of their own up to what closes them. Lines may be empty. -/
inductive Lined (closing : List Token) : List (List Lexeme) → List Lexeme → Prop
  | close {lines row : List Lexeme} (hLines : AreLines lines) (hClose : tokensOf row = closing) :
      Lined closing [] (lines ++ row)
  | last {lines row : List Lexeme} (hLines : AreLines lines) (item : List Lexeme)
      (hClose : tokensOf row = closing) : Lined closing [item] (lines ++ (item ++ row))
  | more {lines row : List Lexeme} (hLines : AreLines lines) (item : List Lexeme) {l : Lexeme}
      {items : List (List Lexeme)} (hLine : l.token = .newline) (h : Lined closing items row) :
      Lined closing (item :: items) (lines ++ (item ++ l :: row))

variable {closing : Mark} {items : List (List Lexeme)} {row lines : List Lexeme}

theorem Enclosed.written (h : Enclosed closing items row) :
    Script.Enclosed closing (items.map tokensOf) (tokensOf row) := by
  induction h with
  | close hClose =>
    rw [tokensOf_cons, hClose]
    exact .close
  | last item hClose =>
    rw [tokensOf_append, tokensOf_cons, hClose]
    exact .last _
  | more item hComma _ ih =>
    rw [tokensOf_append, tokensOf_cons, hComma]
    exact .more _ ih

theorem Enclosed.ne_nil (h : Enclosed closing items row) : row ≠ [] := by
  cases h <;> simp

theorem Separated.written (h : Separated items row) :
    Script.Separated (items.map tokensOf) (tokensOf row) := by
  induction h with
  | last item => exact .last _
  | more item hComma _ ih =>
    rw [tokensOf_append, tokensOf_cons, hComma]
    exact .more _ ih

/-- Only a single item can be empty as a row of items. -/
theorem Separated.of_nil (h : Separated items []) : ∃ rest, items = [] :: rest := by
  generalize hRow : ([] : List Lexeme) = row at h
  cases h with
  | last item => exact ⟨[], by rw [← hRow]⟩
  | more item => exact absurd hRow (by simp)

theorem AreLines.tokensOf_eq (h : AreLines lines) :
    tokensOf lines = List.replicate lines.length .newline := by
  rw [List.eq_replicate_iff, tokensOf, List.length_map]
  refine ⟨rfl, ?_⟩
  intro t ht
  obtain ⟨l, hl, rfl⟩ := List.mem_map.mp ht
  exact h l hl

theorem Lined.written {closing : List Token} (h : Lined closing items row) :
    Script.Lined closing (items.map tokensOf) (tokensOf row) := by
  induction h with
  | close hLines hClose =>
    rw [tokensOf_append, hLines.tokensOf_eq, hClose]
    exact .close _
  | last hLines item hClose =>
    rw [tokensOf_append, tokensOf_append, hLines.tokensOf_eq, hClose]
    exact .last _ _
  | more hLines item hLine _ ih =>
    rw [tokensOf_append, tokensOf_append, tokensOf_cons, hLines.tokensOf_eq, hLine]
    exact .more _ _ ih

end Lexeme

/-! ## Rows of terms -/

/-- A name at the place of its token. -/
def Identifier.PlacedAt (name : Identifier) (l : Lexeme) : Prop :=
  l.token = .identifier name.name ∧ name.span = l.span

/-- A name as a row. -/
def Identifier.Placed (name : Identifier) (row : List Lexeme) : Prop :=
  ∃ l, row = [l] ∧ name.PlacedAt l

/-- A whole number as a row. -/
def IsNatural (n : Nat) (row : List Lexeme) : Prop := ∃ l, row = [l] ∧ l.token = .int n

/-- What a named value depends on stands in brackets, if it is given. -/
inductive DependenciesPlaced : Option (List Identifier) → List Lexeme → Prop
  | absent : DependenciesPlaced none []
  | names {names : List Identifier} {rows : List (List Lexeme)} {row : List Lexeme} {o c : Lexeme}
      (hOpen : o.token = .mark .leftParen) (hNames : List.Forall₂ Identifier.Placed names rows)
      (h : Lexeme.Separated rows row) (hClose : c.token = .mark .rightParen) :
      DependenciesPlaced (some names) (o :: (row ++ [c]))

/-- The rows of a list of whole numbers between square brackets. -/
inductive DimsPlaced : List Nat → List Lexeme → Prop
  | list {ns : List Nat} {rows : List (List Lexeme)} {row : List Lexeme} {o : Lexeme}
      (hOpen : o.token = .mark .leftBracket) (hItems : List.Forall₂ IsNatural ns rows)
      (h : Lexeme.Enclosed .rightBracket rows row) : DimsPlaced ns (o :: row)

/-- The rows of a term where it has to be of a strength. -/
inductive Term.Placed : Strength → Term → List Lexeme → Prop
  | number {l : Strength} {t : Lexeme} {x : Float} (h : t.token.number? = some x) :
      Term.Placed l (.number t.span x) [t]
  | dims {l : Strength} {ns : List Nat} {row : List Lexeme} (h : DimsPlaced ns row) :
      Term.Placed l (.dims (spanOf row) ns) row
  | var {l : Strength} {name : Identifier} {t : Lexeme} (h : name.PlacedAt t) :
      Term.Placed l (.var name) [t]
  | call {l : Strength} {callee : Identifier} {arguments : List Term} {t o : Lexeme}
      {rows : List (List Lexeme)} {row : List Lexeme} (hCallee : callee.PlacedAt t)
      (hOpen : o.token = .mark .leftParen) (hLength : arguments.length = rows.length)
      (h : ∀ p ∈ arguments.zip rows, Term.Placed .naming p.1 p.2)
      (hRow : Lexeme.Enclosed .rightParen rows row) :
      Term.Placed l (.call (spanOf (t :: o :: row)) callee arguments) (t :: o :: row)
  | neg {l : Strength} {e : Term} {t : Lexeme} {row : List Lexeme} (hStrength : l ≤ .unary)
      (hMinus : t.token = .mark .minus) (h : Term.Placed .unary e row) :
      Term.Placed l (.neg (spanOf (t :: row)) e) (t :: row)
  | binary {l : Strength} {op : BinaryOp} {lhs rhs : Term} {t : Lexeme} {left right : List Lexeme}
      (hStrength : l ≤ op.strength) (hLeft : Term.Placed op.leftStrength lhs left)
      (hOp : t.token = .mark op.mark) (hRight : Term.Placed op.rightStrength rhs right) :
      Term.Placed l (.binary (spanOf (left ++ t :: right)) op lhs rhs) (left ++ t :: right)
  | named {l : Strength} {value : Term} {name : Identifier} {dependsOn : Option (List Identifier)}
      {t n : Lexeme} {row later : List Lexeme} (hStrength : l ≤ .naming)
      (h : Term.Placed .comparison value row) (hNaming : t.token = .keyword .naming)
      (hName : name.PlacedAt n) (hDependsOn : DependenciesPlaced dependsOn later) :
      Term.Placed l (.named (spanOf (row ++ t :: n :: later)) value name dependsOn)
        (row ++ t :: n :: later)
  | brackets {l : Strength} {e : Term} {o c : Lexeme} {row : List Lexeme}
      (hOpen : o.token = .mark .leftParen) (h : Term.Placed .naming e row)
      (hClose : c.token = .mark .rightParen) : Term.Placed l e (o :: (row ++ [c]))

/-! ## Rows of scripts -/

/-- The rows of a parameter. -/
inductive Parameter.Placed : Parameter → List Lexeme → Prop
  | scalar {name : Identifier} {t : Lexeme} (h : name.PlacedAt t) :
      Parameter.Placed ⟨name, [], t.span⟩ [t]
  | array {name : Identifier} {shape : Shape} {t c : Lexeme} {row : List Lexeme}
      (h : name.PlacedAt t) (hColon : c.token = .mark .colon) (hShape : DimsPlaced shape row) :
      Parameter.Placed ⟨name, shape, spanOf (t :: c :: row)⟩ (t :: c :: row)

/-- The rows of a statement. -/
inductive Statement.Placed : Statement → List Lexeme → Prop
  | bind {name : Identifier} {value : Term} {k t o : Lexeme} {row : List Lexeme}
      (hBind : k.token = .keyword .bind) (hName : name.PlacedAt t)
      (hEquals : o.token = .mark .equals) (h : value.Placed .naming row) :
      Statement.Placed (.bind (spanOf (k :: t :: o :: row)) name value) (k :: t :: o :: row)
  | result {values : List Term} {k : Lexeme} {rows : List (List Lexeme)} {row : List Lexeme}
      (hResult : k.token = .keyword .result) (h : List.Forall₂ (Term.Placed .naming) values rows)
      (hRow : Lexeme.Separated rows row) :
      Statement.Placed (.result (spanOf (k :: row)) values) (k :: row)

/-- The rows of the body of a function. -/
inductive BodyPlaced : List Statement → List Lexeme → Prop
  | lines {body : List Statement} {o : Lexeme} {rows : List (List Lexeme)} {row : List Lexeme}
      (hOpen : o.token = .mark .leftBrace) (h : List.Forall₂ Statement.Placed body rows)
      (hLines : Lexeme.Lined [.mark .rightBrace] rows row) : BodyPlaced body (o :: row)

/-- The rows of a definition. -/
inductive Definition.Placed : Definition → List Lexeme → Prop
  | parts {name : Identifier} {parameters : List Parameter} {body : List Statement}
      {k t o : Lexeme} {rows : List (List Lexeme)} {list later : List Lexeme}
      (hFunction : k.token = .keyword .function) (hName : name.PlacedAt t)
      (hOpen : o.token = .mark .leftParen)
      (hParameters : List.Forall₂ Parameter.Placed parameters rows)
      (hList : Lexeme.Enclosed .rightParen rows list) (hBody : BodyPlaced body later) :
      Definition.Placed ⟨name, parameters, body, spanOf (k :: t :: o :: (list ++ later))⟩
        (k :: t :: o :: (list ++ later))

/-- The rows of a script. -/
inductive SourceFile.Placed : SourceFile → List Lexeme → Prop
  | lines {f : SourceFile} {rows : List (List Lexeme)} {row : List Lexeme}
      (h : List.Forall₂ Definition.Placed f.definitions rows) (hLines : Lexeme.Lined [] rows row) :
      SourceFile.Placed f row

/-! ## Rows without places -/

variable {e : Term} {l : Strength} {row : List Lexeme}

theorem IsNatural.tokensOf_eq {n : Nat} (h : IsNatural n row) : tokensOf row = [.int n] := by
  obtain ⟨l, rfl, hToken⟩ := h
  rw [tokensOf_cons, hToken]
  rfl

theorem Identifier.Placed.tokensOf_eq {name : Identifier} (h : name.Placed row) :
    tokensOf row = [.identifier name.name] := by
  obtain ⟨l, rfl, hToken, -⟩ := h
  rw [tokensOf_cons, hToken]
  rfl

/-- Rows of items that are placed are written ones. -/
theorem written_rows {α : Type} {placed : α → List Lexeme → Prop} {written : α → List Token → Prop}
    {as : List α} {rows : List (List Lexeme)} (h : List.Forall₂ placed as rows)
    (hWritten : ∀ a row, placed a row → written a (tokensOf row)) :
    List.Forall₂ written as (rows.map tokensOf) :=
  List.forall₂_map_right_iff.mpr (h.imp hWritten)

/-- The rows of items that have one row each. -/
theorem rows_eq_map {α : Type} {g : α → List Token} {as : List α} {rows : List (List Token)}
    (h : List.Forall₂ (fun a row => row = g a) as rows) : rows = as.map g := by
  have hSame : List.Forall₂ (· = ·) (as.map g) rows :=
    List.forall₂_map_left_iff.mpr (h.imp fun _ _ => Eq.symm)
  rw [List.forall₂_eq_eq_eq] at hSame
  exact hSame.symm

theorem DimsPlaced.written {ns : List Nat} (h : DimsPlaced ns row) :
    ∃ ts, tokensOf row = .mark .leftBracket :: ts ∧
      Enclosed .rightBracket (ns.map fun n => [.int n]) ts := by
  cases h with
  | @list rows list o hOpen hItems h =>
    refine ⟨tokensOf list, by rw [tokensOf_cons, hOpen], ?_⟩
    rw [← rows_eq_map (written_rows hItems fun _ _ hn => hn.tokensOf_eq)]
    exact h.written

theorem DependenciesPlaced.written {dependsOn : Option (List Identifier)}
    (h : DependenciesPlaced dependsOn row) : DependenciesWritten dependsOn (tokensOf row) := by
  cases h with
  | absent => exact .absent
  | names hOpen hNames h hClose =>
    rw [tokensOf_cons, tokensOf_append, tokensOf_cons, tokensOf_nil, hOpen, hClose]
    refine .names ?_
    rw [← rows_eq_map (written_rows hNames fun _ _ hn => hn.tokensOf_eq)]
    exact h.written

theorem Term.Placed.written (h : e.Placed l row) : e.Written True l (tokensOf row) := by
  induction h with
  | number h => exact .number h
  | dims h =>
    obtain ⟨ts, hRow, hTs⟩ := h.written
    rw [hRow]
    exact .dims hTs
  | var h =>
    rw [tokensOf_cons, h.1]
    exact .var
  | @call l callee arguments t o rows row hCallee hOpen hLength h hRow ih =>
    rw [tokensOf_cons, tokensOf_cons, hCallee.1, hOpen]
    refine .call (by rwa [List.length_map]) ?_ hRow.written
    -- The arguments are written row by row, each in the tokens of its own row.
    rw [List.zip_map_right]
    intro p hp
    obtain ⟨q, hq, rfl⟩ := List.mem_map.mp hp
    exact ih q hq
  | neg hStrength hMinus _ ih =>
    rw [tokensOf_cons, hMinus]
    exact .neg hStrength ih
  | binary hStrength _ hOp _ ihLeft ihRight =>
    rw [tokensOf_append, tokensOf_cons, hOp]
    exact .binary hStrength ihLeft ihRight
  | named hStrength _ hNaming hName hDependsOn ih =>
    rw [tokensOf_append, tokensOf_cons, tokensOf_cons, hNaming, hName.1]
    exact .named hStrength ih hDependsOn.written
  | brackets hOpen _ hClose ih =>
    rw [tokensOf_cons, tokensOf_append, tokensOf_cons, tokensOf_nil, hOpen, hClose]
    exact .brackets (Or.inl trivial) ih

theorem Parameter.Placed.written {p : Parameter} (h : p.Placed row) : p.Written (tokensOf row) := by
  cases h with
  | scalar h =>
    rw [tokensOf_cons, h.1]
    exact .scalar rfl
  | array h hColon hShape =>
    obtain ⟨ts, hRow, hTs⟩ := hShape.written
    rw [tokensOf_cons, tokensOf_cons, h.1, hColon, hRow]
    exact .array hTs

theorem Statement.Placed.written {s : Statement} (h : s.Placed row) :
    s.Written True (tokensOf row) := by
  cases h with
  | bind hBind hName hEquals h =>
    rw [tokensOf_cons, tokensOf_cons, tokensOf_cons, hBind, hName.1, hEquals]
    exact .bind h.written
  | result hResult h hRow =>
    rw [tokensOf_cons, hResult]
    exact .result (written_rows h fun _ _ he => he.written) hRow.written

theorem Definition.Placed.written {d : Definition} (h : d.Placed row) :
    d.Written True (tokensOf row) := by
  cases h with
  | parts hFunction hName hOpen hParameters hList hBody =>
    cases hBody with
    | lines hBrace h hLines =>
      rw [tokensOf_cons, tokensOf_cons, tokensOf_cons, tokensOf_append, tokensOf_cons, hFunction,
        hName.1, hOpen, hBrace]
      exact .parts (written_rows hParameters fun _ _ hp => hp.written) hList.written
        (written_rows h fun _ _ hs => hs.written) hLines.written

/-- **A script with its places is a written one.** -/
theorem SourceFile.Placed.written {f : SourceFile} (h : f.Placed row) :
    f.Written True (tokensOf row) := by
  cases h with
  | lines h hLines => exact .lines (written_rows h fun _ _ hd => hd.written) hLines.written

/-! ## Rows are not empty -/

theorem Identifier.Placed.ne_nil {name : Identifier} (h : name.Placed row) : row ≠ [] := by
  obtain ⟨l, rfl, -⟩ := h
  exact List.cons_ne_nil l []

theorem IsNatural.ne_nil {n : Nat} (h : IsNatural n row) : row ≠ [] := by
  obtain ⟨l, rfl, -⟩ := h
  exact List.cons_ne_nil l []

theorem DimsPlaced.ne_nil {ns : List Nat} (h : DimsPlaced ns row) : row ≠ [] := by
  cases h
  exact List.cons_ne_nil _ _

theorem Term.Placed.ne_nil (h : e.Placed l row) : row ≠ [] := by
  cases h with
  | dims h => exact h.ne_nil
  | _ => simp

theorem Parameter.Placed.ne_nil {p : Parameter} (h : p.Placed row) : row ≠ [] := by
  cases h <;> exact List.cons_ne_nil _ _

theorem Statement.Placed.ne_nil {s : Statement} (h : s.Placed row) : row ≠ [] := by
  cases h <;> exact List.cons_ne_nil _ _

theorem Definition.Placed.ne_nil {d : Definition} (h : d.Placed row) : row ≠ [] := by
  cases h
  exact List.cons_ne_nil _ _

end ArrayEquations.Script
