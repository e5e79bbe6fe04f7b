import ArrayEquations.Proofs.PlacedScripts

/-!
# ArrayEquations — shifted places

A part of a source that is taken out of it starts at the beginning, so that all places in it are
shifted. Rows that make up a part of a script still do so when they are shifted, with the places of
the part shifted as well.

## Main definitions

* `Span.shift`, `Term.shift`, `Definition.shift` — the same with all places later by a number.

## Main results

* `Term.Placed.shift`, `Definition.Placed.shift` — shifted rows make up shifted syntax.
-/

namespace ArrayEquations

/-- A place, later by a number of bytes. -/
def Span.shift (s : Nat) (p : Span) : Span := ⟨p.start + s, p.stop + s⟩

end ArrayEquations

namespace ArrayEquations.Script

variable (s : Nat)

/-- A token, later by a number of bytes. -/
def Lexeme.shift (l : Lexeme) : Lexeme := ⟨l.token, l.span.shift s⟩

/-- A name, later by a number of bytes. -/
def Identifier.shift (n : Identifier) : Identifier := ⟨n.name, n.span.shift s⟩

/-- A term with all its places later by a number of bytes. -/
def Term.shift : Term → Term
  | .number span x => .number (span.shift s) x
  | .dims span ns => .dims (span.shift s) ns
  | .var name => .var (name.shift s)
  | .neg span e => .neg (span.shift s) e.shift
  | .binary span op lhs rhs => .binary (span.shift s) op lhs.shift rhs.shift
  | .call span callee arguments =>
    .call (span.shift s) (callee.shift s) (arguments.map Term.shift)
  | .named span value name dependsOn =>
    .named (span.shift s) value.shift (name.shift s) (dependsOn.map (List.map (Identifier.shift s)))

/-- A statement with all its places later by a number of bytes. -/
def Statement.shift : Statement → Statement
  | .bind span name value => .bind (span.shift s) (name.shift s) (value.shift s)
  | .result span values => .result (span.shift s) (values.map (Term.shift s))

/-- A parameter with all its places later by a number of bytes. -/
def Parameter.shift (p : Parameter) : Parameter := ⟨p.name.shift s, p.shape, p.span.shift s⟩

/-- A definition with all its places later by a number of bytes. -/
def Definition.shift (d : Definition) : Definition :=
  ⟨d.name.shift s, d.parameters.map (Parameter.shift s), d.body.map (Statement.shift s),
    d.span.shift s⟩

/-! ## Rows -/

/-- A row, later by a number of bytes. -/
abbrev shiftRow (row : List Lexeme) : List Lexeme := row.map (Lexeme.shift s)

variable {s} {row : List Lexeme} {rows : List (List Lexeme)}

@[simp] theorem tokensOf_shift (row : List Lexeme) : tokensOf (shiftRow s row) = tokensOf row := by
  rw [tokensOf, List.map_map]
  rfl

theorem endOf_shift (row : List Lexeme) (reached : Nat) :
    endOf (shiftRow s row) (reached + s) = endOf row reached + s := by
  induction row generalizing reached with
  | nil => rfl
  | cons l row ih => exact ih l.span.stop

theorem spanOf_shift (hSome : row ≠ []) : spanOf (shiftRow s row) = (spanOf row).shift s := by
  obtain ⟨l, row, rfl⟩ := List.exists_cons_of_ne_nil hSome
  rw [shiftRow, List.map_cons, spanOf, spanOf, Span.shift, ← endOf_shift]
  rfl

namespace Lexeme

theorem Enclosed.shift {closing : Mark} (h : Enclosed closing rows row) :
    Enclosed closing (rows.map (shiftRow s)) (shiftRow s row) := by
  induction h with
  | close hClose => exact .close hClose
  | last item hClose =>
    rw [shiftRow, List.map_append]
    exact .last _ hClose
  | more item hComma _ ih =>
    rw [shiftRow, List.map_append]
    exact .more _ hComma ih

theorem Separated.shift (h : Separated rows row) :
    Separated (rows.map (shiftRow s)) (shiftRow s row) := by
  induction h with
  | last item => exact .last _
  | more item hComma _ ih =>
    rw [shiftRow, List.map_append]
    exact .more _ hComma ih

theorem AreLines.shift (h : AreLines row) : AreLines (shiftRow s row) := by
  intro l hl
  obtain ⟨l', hl', rfl⟩ := List.mem_map.mp hl
  exact h l' hl'

theorem Lined.shift {closing : List Token} (h : Lined closing rows row) :
    Lined closing (rows.map (shiftRow s)) (shiftRow s row) := by
  induction h with
  | close hLines hClose =>
    rw [shiftRow, List.map_append]
    exact .close hLines.shift (by rwa [tokensOf_shift])
  | last hLines item hClose =>
    rw [shiftRow, List.map_append, List.map_append]
    exact .last hLines.shift _ (by rwa [tokensOf_shift])
  | more hLines item hLine _ ih =>
    rw [shiftRow, List.map_append, List.map_append]
    exact .more hLines.shift _ hLine ih

end Lexeme

/-- Shifted rows of items are rows of shifted items. -/
theorem forall₂_shift {α : Type} {P : α → List Lexeme → Prop} {f : α → α} {as : List α}
    (h : List.Forall₂ P as rows) (hShift : ∀ a row, P a row → P (f a) (shiftRow s row)) :
    List.Forall₂ P (as.map f) (rows.map (shiftRow s)) := by
  rw [List.forall₂_map_left_iff, List.forall₂_map_right_iff]
  exact h.imp hShift

/-! ## Terms -/

variable {n : Identifier} {t : Lexeme}

theorem Identifier.PlacedAt.shift (h : n.PlacedAt t) : (n.shift s).PlacedAt (t.shift s) :=
  ⟨h.1, congrArg (Span.shift s) h.2⟩

theorem Identifier.Placed.shift (h : n.Placed row) : (n.shift s).Placed (shiftRow s row) := by
  obtain ⟨t, rfl, hAt⟩ := h
  exact ⟨_, rfl, hAt.shift⟩

theorem DependenciesPlaced.shift {dependsOn : Option (List Identifier)}
    (h : DependenciesPlaced dependsOn row) :
    DependenciesPlaced (dependsOn.map (List.map (Identifier.shift s))) (shiftRow s row) := by
  cases h with
  | absent => exact .absent
  | names hOpen hNames h hClose =>
    rw [shiftRow, List.map_cons, List.map_append]
    exact .names hOpen (forall₂_shift hNames fun _ _ hn => hn.shift) h.shift hClose

theorem DimsPlaced.shift {ns : List Nat} (h : DimsPlaced ns row) :
    DimsPlaced ns (shiftRow s row) := by
  cases h with
  | list hOpen hItems h =>
    refine .list hOpen ?_ h.shift
    refine List.forall₂_map_right_iff.mpr (hItems.imp ?_)
    rintro n row ⟨t, rfl, hToken⟩
    exact ⟨_, rfl, hToken⟩

theorem Term.Placed.shift {e : Term} {l : Strength} (h : e.Placed l row) :
    (e.shift s).Placed l (shiftRow s row) := by
  induction h with
  | @number l t x h =>
    rw [Term.shift]
    exact Term.Placed.number (show (t.shift s).token.number? = some x from h)
  | dims h =>
    rw [Term.shift, ← spanOf_shift h.ne_nil]
    exact .dims h.shift
  | var h =>
    rw [Term.shift]
    exact .var h.shift
  | @call l callee arguments t o rows row hCallee hOpen hLength h hRow ih =>
    rw [Term.shift, ← spanOf_shift (List.cons_ne_nil _ _)]
    refine .call hCallee.shift hOpen (by rwa [List.length_map, List.length_map]) ?_ hRow.shift
    -- Arguments and rows are shifted together, so that they stay paired.
    rw [List.zip_map]
    intro p hp
    obtain ⟨q, hq, rfl⟩ := List.mem_map.mp hp
    exact ih q hq
  | neg hStrength hMinus _ ih =>
    rw [Term.shift, ← spanOf_shift (List.cons_ne_nil _ _)]
    exact .neg hStrength hMinus ih
  | binary hStrength _ hOp _ ihLeft ihRight =>
    rw [Term.shift, ← spanOf_shift (by simp), shiftRow, List.map_append]
    exact .binary hStrength ihLeft hOp ihRight
  | named hStrength _ hNaming hName hDependsOn ih =>
    rw [Term.shift, ← spanOf_shift (by simp), shiftRow, List.map_append]
    exact .named hStrength ih hNaming hName.shift hDependsOn.shift
  | brackets hOpen _ hClose ih =>
    rw [shiftRow, List.map_cons, List.map_append]
    exact .brackets hOpen ih hClose

/-! ## Definitions -/

theorem Parameter.Placed.shift {p : Parameter} (h : p.Placed row) :
    (p.shift s).Placed (shiftRow s row) := by
  cases h with
  | scalar h => exact .scalar h.shift
  | array h hColon hShape =>
    rw [Parameter.shift, ← spanOf_shift (List.cons_ne_nil _ _)]
    exact .array h.shift hColon hShape.shift

theorem Statement.Placed.shift {statement : Statement} (h : statement.Placed row) :
    (statement.shift s).Placed (shiftRow s row) := by
  cases h with
  | bind hBind hName hEquals h =>
    rw [Statement.shift, ← spanOf_shift (List.cons_ne_nil _ _)]
    exact .bind hBind hName.shift hEquals h.shift
  | result hResult h hRow =>
    rw [Statement.shift, ← spanOf_shift (List.cons_ne_nil _ _)]
    exact .result hResult (forall₂_shift h fun _ _ he => he.shift) hRow.shift

theorem BodyPlaced.shift {body : List Statement} (h : BodyPlaced body row) :
    BodyPlaced (body.map (Statement.shift s)) (shiftRow s row) := by
  cases h with
  | lines hOpen h hLines =>
    exact .lines hOpen (forall₂_shift h fun _ _ hs => hs.shift) hLines.shift

theorem Definition.Placed.shift {d : Definition} (h : d.Placed row) :
    (d.shift s).Placed (shiftRow s row) := by
  cases h with
  | parts hFunction hName hOpen hParameters hList hBody =>
    rw [Definition.shift, ← spanOf_shift (List.cons_ne_nil _ _), shiftRow, List.map_cons,
      List.map_cons, List.map_cons, List.map_append]
    exact .parts hFunction hName.shift hOpen (forall₂_shift hParameters fun _ _ hp => hp.shift)
      hList.shift hBody.shift

end ArrayEquations.Script
