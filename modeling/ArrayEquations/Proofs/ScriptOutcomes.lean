import ArrayEquations.Proofs.ReadScripts
import ArrayEquations.Proofs.TermOutcomes

/-!
# ArrayEquations — syntax errors

Whatever the tokens of a source are, reading it takes them all as a script, every part at its own
place, or stops behind a row of tokens that a script can begin with. Where it stops at a token, no
script goes on with it: if one did, it would be read, but reading depends on no token behind the
one at which it stops.

## Main results

* `Reading.reads_definition`, `Reading.reads_file` — what becomes of reading a definition, a script.
* `parse_stops_at_first_impossible` — a syntax error stands at the first token that no script has
  there.
-/

namespace ArrayEquations.Script

variable {closing : List Token} {items : List (List Token)} {ts us : List Token}

/-! ## Lines -/

theorem Lined.behind_lines (h : Lined closing items ts) (j : Nat) :
    Lined closing items (List.replicate j .newline ++ ts) := by
  cases h with
  | close k =>
    rw [Reading.replicate_append_replicate]
    exact .close _
  | last k item =>
    rw [Reading.replicate_append_replicate]
    exact .last _ item
  | more k item h =>
    rw [Reading.replicate_append_replicate]
    exact .more _ item h

namespace Lexeme

variable {rows : List (List Lexeme)} {row : List Lexeme}

theorem Lined.ne_nil (h : Lined closing rows row) (hClosing : closing ≠ []) : row ≠ [] := by
  cases h with
  | close _ hClose =>
    rintro hNil
    rw [List.append_eq_nil_iff] at hNil
    exact hClosing (by rw [← hClose, hNil.2, tokensOf_nil])
  | last _ item hClose =>
    intro hNil
    rw [List.append_eq_nil_iff, List.append_eq_nil_iff] at hNil
    exact hClosing (by rw [← hClose, hNil.2.2, tokensOf_nil])
  | more => simp

/-- Every row is line ends and what is behind them. -/
theorem exists_lines (row : List Lexeme) : ∃ lines rest, row = lines ++ rest ∧ AreLines lines ∧
    ∀ l ∈ rest.head?, l.token ≠ .newline := by
  induction row with
  | nil => exact ⟨[], [], rfl, by simp [AreLines], by simp⟩
  | cons l row ih =>
    by_cases hLine : l.token = .newline
    · obtain ⟨lines, rest, rfl, hLines, hRest⟩ := ih
      exact ⟨l :: lines, rest, rfl, List.forall_mem_cons.mpr ⟨hLine, hLines⟩, hRest⟩
    · refine ⟨[], l :: row, rfl, by simp [AreLines], ?_⟩
      intro l' hl'
      obtain rfl : l = l' := Option.some.inj hl'
      exact hLine

end Lexeme

namespace Reading

variable {α β : Type} {length : Nat} {c : Cursor} {m m' : Reading β} {R : β → List Lexeme → Prop}
  {Viable : List Token → Prop}

/-- What is done behind the line ends at the front. -/
theorem Reads.skipLines {f f' : Unit → Reading β}
    (h : ∀ lines rest, c.rest = lines ++ rest → Lexeme.AreLines lines →
      (∀ l ∈ rest.head?, l.token ≠ .newline) →
      Reads (length - lines.length) (f ()) (f' ()) (fun b later => R b (lines ++ later))
        (fun ts => Viable (tokensOf lines ++ ts)) ⟨rest, endOf lines c.reached⟩) :
    Reads length (skipLines >>= f) (skipLines >>= f') R Viable c := by
  obtain ⟨lines, rest, hRest, hLines, hBehind⟩ := Lexeme.exists_lines c.rest
  have hRun : ∀ rest' reached, (∀ l ∈ rest'.head?, l.token ≠ .newline) →
      Reading.skipLines.run ⟨lines ++ rest', reached⟩ = .ok ((), ⟨rest', endOf lines reached⟩) :=
    fun rest' reached hRest' =>
      congrArg (fun c => Except.ok ((), c)) (behindLines_newlines hLines hRest' reached)
  -- The reader takes the line breaks and nothing else, and it never gets stuck.
  have hSkip : Reads length Reading.skipLines Reading.skipLines (fun _ row => row = lines)
      (fun _ => False) c := by
    refine .takes () lines rest hRest ?_ rfl fun rest' _ hLike => hRun rest' c.reached ?_
    · obtain ⟨tokens, reached⟩ := c
      obtain rfl : tokens = lines ++ rest := hRest
      exact hRun rest reached hBehind
    · rcases hLike with rfl | hLike
      · simp
      · intro l hl hLine
        have hHead : rest'.head? = some l := hl
        rw [hHead, Option.map_some] at hLike
        obtain ⟨l', hl', hEq⟩ := Option.map_eq_some_iff.mp hLike.symm
        exact hBehind l' hl' (hEq.trans hLine)
  refine hSkip.bind ?_ fun _ _ _ => False.elim
  rintro ⟨⟩ _ rest' hRest' rfl
  obtain rfl : rest = rest' := List.append_cancel_left (hRest.symm.trans hRest')
  exact h _ rest hRest hLines hBehind

/-- An action that takes the token in front in any case. -/
theorem Reads.behind {l : Lexeme} {rest : List Lexeme} (hRest : c.rest = l :: rest)
    (hRun : ∀ rest, m.run ⟨l :: rest, c.reached⟩ = m.run ⟨rest, l.span.stop⟩)
    (hRun' : ∀ rest, m'.run ⟨l :: rest, c.reached⟩ = m'.run ⟨rest, l.span.stop⟩)
    (h : Reads (length - 1) m m' (fun b later => R b (l :: later))
      (fun ts => Viable (l.token :: ts)) ⟨rest, l.span.stop⟩) :
    Reads length m m' R Viable c := by
  obtain ⟨tokens, reached⟩ := c
  obtain rfl : tokens = l :: rest := hRest
  cases h with
  | stops row rest' hRest' hTo hStop hLike =>
    refine .stops (l :: row) rest' (congrArg _ hRest') ((hRun rest).trans hTo) hStop ?_
    intro t rest'' ht hLength
    rw [List.cons_append, List.length_cons] at hLength
    exact (hRun' _).trans (hLike t rest'' ht (by omega))
  | takes b row rest' hRest' hTo hTaken hLike =>
    refine .takes b (l :: row) rest' (congrArg _ hRest') ((hRun rest).trans hTo) hTaken ?_
    intro rest'' hLength hNext
    rw [List.cons_append, List.length_cons] at hLength
    exact (hRun' _).trans (hLike rest'' (by omega) hNext)

theorem behindLines_cons {l : Lexeme} (hLine : l.token = .newline) (rest : List Lexeme)
    (reached : Nat) : behindLines (l :: rest) reached = behindLines rest l.span.stop := by
  rw [behindLines, if_pos hLine]

/-- What begins by skipping line ends takes one in front in any case. -/
theorem run_skipLines_cons {f : Unit → Reading β} {l : Lexeme} (hLine : l.token = .newline)
    (rest : List Lexeme) (reached : Nat) :
    (skipLines >>= f).run ⟨l :: rest, reached⟩ = (skipLines >>= f).run ⟨rest, l.span.stop⟩ := by
  have hRun : ∀ c, (skipLines >>= f).run c = (f ()).run (behindLines c.rest c.reached) :=
    fun c => rfl
  rw [hRun, hRun, behindLines_cons hLine]

/-! ## Rows that scripts begin with -/

/-- Written items on lines of their own up to what closes them. -/
def LinedOf (closing : List Token) (written : α → List Token → Prop) (as : List α)
    (ts : List Token) : Prop := ∃ rows, List.Forall₂ written as rows ∧ Lined closing rows ts

variable {W : α → List Token → Prop} {a : α}

theorem Begins.of_append (ts us : List Token) (h : Begins W (ts ++ us)) : Begins W ts := by
  obtain ⟨a, later, ha⟩ := h
  rw [List.append_assoc] at ha
  exact ⟨a, us ++ later, ha⟩

theorem begins_lined : Begins (LinedOf closing W) [] := ⟨[], closing, [], .nil, .close 0⟩

theorem Begins.lined (h : Begins W ts) : Begins (LinedOf closing W) ts :=
  h.map [] closing fun a later ha => ⟨[a], [ts ++ later], .cons ha .nil, .last 0 _⟩

theorem Begins.lined_more (h : Begins (LinedOf closing W) us) (ha : W a ts) :
    Begins (LinedOf closing W) (ts ++ .newline :: us) := by
  obtain ⟨as, later, rows, hRows, hRow⟩ := h
  refine ⟨a :: as, later, ts :: rows, .cons ha hRows, ?_⟩
  rw [List.append_assoc]
  exact .more 0 ts hRow

theorem Begins.lines (h : Begins (LinedOf closing W) ts) {lines : List Lexeme}
    (hLines : Lexeme.AreLines lines) : Begins (LinedOf closing W) (tokensOf lines ++ ts) := by
  obtain ⟨as, later, rows, hRows, hRow⟩ := h
  refine ⟨as, later, rows, hRows, ?_⟩
  rw [hLines.tokensOf_eq, List.append_assoc]
  exact hRow.behind_lines _

theorem begins_bind (name : String) (h : TermBegins .naming ts) :
    Begins (Statement.Written True)
      (.keyword .bind :: .identifier name :: .mark .equals :: ts) := by
  obtain ⟨e, later, he⟩ := h
  exact ⟨.bind ⟨0, 0⟩ ⟨name, ⟨0, 0⟩⟩ e, later, .bind he⟩

theorem begins_result (h : Begins (SeparatedOf (Term.Written True .naming)) ts) :
    Begins (Statement.Written True) (.keyword .result :: ts) := by
  obtain ⟨es, later, rows, hRows, hRow⟩ := h
  exact ⟨.result ⟨0, 0⟩ es, later, .result hRows hRow⟩

/-- The body of a function as it is written. -/
def BodyWritten (body : List Statement) (ts : List Token) : Prop :=
  ∃ us, ts = .mark .leftBrace :: us ∧ LinedOf [.mark .rightBrace] (Statement.Written True) body us

/-- Behind the head of a definition comes its body. -/
theorem begins_definition_body (name : String) {parameters : List Parameter}
    (hParameters : EnclosedOf .rightParen Parameter.Written parameters us)
    (h : Begins BodyWritten ts) :
    Begins (Definition.Written True)
      (.keyword .function :: .identifier name :: .mark .leftParen :: (us ++ ts)) := by
  obtain ⟨body, later, vs, hRow, rows, hRows, hLines⟩ := h
  obtain ⟨parameterRows, hParameterRows, hList⟩ := hParameters
  refine ⟨⟨⟨name, ⟨0, 0⟩⟩, parameters, body, ⟨0, 0⟩⟩, later, ?_⟩
  rw [List.cons_append, List.cons_append, List.cons_append, List.append_assoc, hRow]
  exact .parts hParameterRows hList hRows hLines

theorem begins_definition_parameters (name : String)
    (h : Begins (EnclosedOf .rightParen Parameter.Written) ts) :
    Begins (Definition.Written True)
      (.keyword .function :: .identifier name :: .mark .leftParen :: ts) := by
  obtain ⟨parameters, later, hParameters⟩ := h
  have hBody : Begins BodyWritten [] :=
    ⟨[], [.mark .leftBrace, .mark .rightBrace], _, rfl, [], .nil, .close 0⟩
  have hAll := begins_definition_body name hParameters hBody
  rw [List.append_nil] at hAll
  exact Begins.of_append _ _ hAll

/-! ## Statements -/

theorem reads_statement :
    Reads length statement statement Statement.Placed (Begins (Statement.Written True)) c := by
  have hTerm : ReadsUpTo c.rest.length length term term (Term.Placed .naming)
      (TermBegins .naming) := fun c k _ _ => reads_term
  unfold statement
  refine Reads.place (fun _ hs => absurd rfl hs.ne_nil) ?_
  refine Reads.accept (fun k rest hRest hBind => ?_) fun _ => ?_
  · rw [start_eq hRest]
    have hBegins := begins_bind "x" termBegins_nil
    have hName : Reads (length - 1) identifier identifier Identifier.Placed
        (fun ts => Begins (Statement.Written True) (.keyword .bind :: ts)) ⟨rest, k.span.stop⟩ :=
      reads_identifier (Begins.of_append [_] _ hBegins)
    refine hName.bind ?_ fun _ _ _ => id
    rintro name _ _ _ ⟨t, rfl, hName⟩
    have hBegins := begins_bind name.name termBegins_nil
    refine Reads.expectMark ?_ fun o _ _ hEquals => ?_
    · rw [tokensOf_cons, hName.1]
      exact Begins.of_append [_, _] _ hBegins
    refine reads_term.bind (fun value row _ _ hValue => ?_) fun row _ _ hRow => ?_
    · refine Reads.spanFrom (reads_pure ?_)
      rw [List.append_nil]
      exact .bind hBind hName hEquals hValue
    · rw [tokensOf_cons, hName.1]
      exact begins_bind name.name hRow
  · have hBegins := begins_result termBegins_nil.separated
    refine Reads.expect (Begins.of_append [] _ hBegins) fun k rest hRest hResult => ?_
    rw [start_eq hRest]
    refine Reads.bind (reads_items hTerm (fun _ he => he.ne_nil rfl) (fun _ _ he => he.written)
      termBegins_nil ?_ (Nat.sub_le _ _)) ?_ fun _ _ _ => begins_result
    · rw [hRest]
      exact Nat.le_succ _
    · rintro values row _ - ⟨rows, hRows, hRow⟩
      refine Reads.spanFrom (reads_pure ?_)
      rw [List.append_nil]
      exact .result hResult hRows hRow

/-- Statements on lines of their own are taken up to the closing brace. -/
theorem reads_statementsWithin (n n' : Nat) {k : Nat} (hn : c.rest.length ≤ n) (hn' : k ≤ n') :
    Reads k (statementsWithin n) (statementsWithin n') (fun body row => ∃ rows,
      List.Forall₂ Statement.Placed body rows ∧ Lexeme.Lined [.mark .rightBrace] rows row)
      (Begins (LinedOf [.mark .rightBrace] (Statement.Written True))) c := by
  induction n generalizing c k n' with
  | zero =>
    exact reads_exhausted hn begins_lined
  | succ n ih =>
    refine Reads.of_succ (F := statementsWithin) ?_ (fun n' hn' => ?_) hn'
    · rintro body ⟨rows, -, hLined⟩
      exact absurd rfl (hLined.ne_nil (by simp))
    unfold statementsWithin
    refine Reads.skipLines fun lines rest hRest hLines _ => ?_
    rw [hRest, List.length_append] at hn
    refine Reads.accept (fun l _ _ hClose => ?_) fun _ => ?_
    · refine reads_pure ⟨[], .nil, .close hLines ?_⟩
      rw [tokensOf_cons, hClose, tokensOf_nil]
    refine reads_statement.bind ?_ fun row _ _ hRow => hRow.lined.lines hLines
    intro s row rest' hRest' hStatement
    obtain rfl : rest = row ++ rest' := hRest'
    have hSome : 0 < row.length := List.length_pos_iff.mpr hStatement.ne_nil
    rw [List.length_append] at hn
    refine Reads.ifNext (fun l rest hRest hLine => ?_) fun _ => ?_
    · obtain rfl : rest' = l :: rest := hRest
      rw [List.length_cons] at hn
      obtain ⟨n, rfl⟩ := Nat.exists_eq_add_one.mpr (show 0 < n by omega)
      -- The line end is not taken here, but by the next round, which skips it in any case.
      refine Reads.map ?_
      refine Reads.of_succ (F := statementsWithin) (fun _ h => absurd rfl h.1) (fun n' hn' => ?_)
        (show k - lines.length - row.length ≤ n' by omega)
      refine Reads.behind rfl (fun rest => run_skipLines_cons hLine rest _)
        (fun rest => run_skipLines_cons hLine rest _) ?_
      have hLater := @ih ⟨rest, l.span.stop⟩ (n' + 1) (k - lines.length - row.length - 1)
        (show rest.length ≤ n + 1 by omega) (by omega)
      refine hLater.imp ?_ ?_
      · rintro body later _ - ⟨rows, hRows, hLined⟩
        exact ⟨by simp, _, .cons hStatement hRows, .more hLines row hLine hLined⟩
      · intro later _ _ hLater
        rw [hLine]
        exact (hLater.lined_more hStatement.written).lines hLines
    · refine Reads.expectMark ?_ fun l _ _ hClose => reads_pure ?_
      · rw [List.append_nil]
        exact (begins_of_written hStatement.written).lined.lines hLines
      · refine ⟨[row], .cons hStatement .nil, .last hLines row ?_⟩
        rw [tokensOf_cons, hClose, tokensOf_nil]

/-! ## Definitions -/

theorem reads_body : Reads length body body BodyPlaced (Begins BodyWritten) c := by
  have hBegins : ∀ {ts}, Begins (LinedOf [.mark .rightBrace] (Statement.Written True)) ts →
      Begins BodyWritten (.mark .leftBrace :: ts) := by
    rintro ts ⟨body, later, hBody⟩
    exact ⟨body, later, _, rfl, hBody⟩
  unfold body
  refine Reads.expectMark (Begins.of_append [] _ (hBegins begins_lined))
    fun o rest _ hOpen => ?_
  refine Reads.remaining fun k n _ hn => ?_
  refine (reads_statementsWithin _ n (Nat.le_refl _) hn).imp ?_ fun _ _ _ => hBegins
  rintro body row _ - ⟨rows, hRows, hLined⟩
  exact .lines hOpen hRows hLined

theorem begins_parameter (name : String) (h : Begins DimsWritten ts) :
    Begins Parameter.Written (.identifier name :: .mark .colon :: ts) := by
  obtain ⟨shape, later, us, hRow, hUs⟩ := h
  refine ⟨⟨⟨name, ⟨0, 0⟩⟩, shape, ⟨0, 0⟩⟩, later, ?_⟩
  rw [List.cons_append, List.cons_append, hRow]
  exact .array hUs

theorem reads_parameter :
    Reads length parameter parameter Parameter.Placed (Begins Parameter.Written) c := by
  have hStart : Begins Parameter.Written [] :=
    ⟨⟨⟨"x", ⟨0, 0⟩⟩, [], ⟨0, 0⟩⟩, _, .scalar rfl⟩
  unfold parameter
  refine Reads.place (fun _ hp => absurd rfl hp.ne_nil) ?_
  refine (reads_identifier hStart).bind ?_ fun _ _ _ => id
  rintro name _ rest hRest ⟨t, rfl, hName⟩
  rw [start_eq hRest]
  refine Reads.accept (fun o rest' _ hColon => ?_) fun _ => ?_
  · rw [if_pos rfl]
    refine reads_dims.bind (fun shape row _ _ hShape => ?_) fun row _ _ hRow => ?_
    · refine Reads.spanFrom (reads_pure ?_)
      rw [List.append_nil]
      exact .array hName hColon hShape
    · rw [tokensOf_cons, hName.1]
      exact begins_parameter name.name hRow
  · rw [if_neg (by decide)]
    -- Without a colon the parameter is a number, and its shape takes no token.
    have hNone : Reads (length - 1) (pure [] : Reading Shape) (pure [])
        (fun shape row => shape = [] ∧ row = []) (fun _ => False) ⟨rest, t.span.stop⟩ :=
      reads_pure ⟨rfl, rfl⟩
    refine hNone.bind ?_ fun _ _ _ => False.elim
    rintro _ _ _ - ⟨rfl, rfl⟩
    exact Reads.spanFrom (reads_pure (.scalar hName))

/-- **What becomes of reading a definition.** -/
theorem reads_definition :
    Reads length definition definition Definition.Placed (Begins (Definition.Written True)) c := by
  have hParameter : ReadsUpTo c.rest.length length parameter parameter Parameter.Placed
      (Begins Parameter.Written) := fun c k _ _ => reads_parameter
  -- The head of a definition goes on, whatever its name is.
  have hHead : ∀ name, Begins (Definition.Written True)
      [.keyword .function, .identifier name, .mark .leftParen] :=
    fun name => begins_definition_parameters name begins_enclosed
  unfold definition
  refine Reads.place (fun _ hd => absurd rfl hd.ne_nil) ?_
  refine Reads.expect (Begins.of_append [] _ (hHead "f")) fun k rest hRest hFunction => ?_
  rw [start_eq hRest]
  rw [hRest, List.length_cons] at hParameter
  have hTaken : Reads (length - 1) identifier identifier Identifier.Placed
      (fun ts => Begins (Definition.Written True) (.keyword .function :: ts))
      ⟨rest, k.span.stop⟩ := reads_identifier (Begins.of_append [_] _ (hHead "f"))
  refine hTaken.bind ?_ fun _ _ _ => id
  rintro name _ rest' hRest' ⟨t, rfl, hName⟩
  obtain rfl : rest = t :: rest' := hRest'
  refine Reads.expectMark ?_ fun o rest hRest hOpen => ?_
  · rw [tokensOf_cons, hName.1]
    exact Begins.of_append [_, _] _ (hHead name.name)
  obtain rfl : rest' = o :: rest := hRest
  refine Reads.bind (reads_closed hParameter (fun _ hp => hp.ne_nil rfl)
    (fun _ _ hp => hp.written) (Nat.le_add_right _ 3) (by omega)) ?_ fun row _ _ hRow => ?_
  · rintro parameters list _ - ⟨rows, hParameters, hList⟩
    refine reads_body.bind (fun body later _ _ hBody => ?_) fun row _ _ hRow => ?_
    · refine Reads.spanFrom (reads_pure ?_)
      rw [List.append_nil, ← endOf_append]
      exact .parts hFunction hName hOpen hParameters hList hBody
    · rw [tokensOf_cons, hName.1]
      exact begins_definition_body name.name
        ⟨_, written_rows hParameters fun _ _ hp => hp.written, hList.written⟩ hRow
  · rw [tokensOf_cons, hName.1]
    exact begins_definition_parameters name.name hRow

/-! ## Scripts -/

/-- Definitions on lines of their own are taken up to the end of the source. -/
theorem reads_definitionsWithin (n n' : Nat) {k : Nat} (hn : c.rest.length ≤ n) (hn' : k ≤ n') :
    Reads k (definitionsWithin n) (definitionsWithin n') (fun ds row => row = c.rest ∧ ∃ rows,
      List.Forall₂ Definition.Placed ds rows ∧ Lexeme.Lined [] rows row)
      (Begins (LinedOf [] (Definition.Written True))) c := by
  induction n generalizing c k n' with
  | zero =>
    have hNil : c.rest = [] := List.length_eq_zero_iff.mp (Nat.le_zero.mp hn)
    have hLined : Lexeme.Lined [] [] ([] ++ []) := .close (by simp [Lexeme.AreLines]) rfl
    refine .takes [] [] [] hNil ?_ ⟨hNil.symm, [], .nil, hLined⟩ ?_
    · exact congrArg (fun rest => Except.ok ([], (⟨rest, c.reached⟩ : Cursor))) hNil
    · intro rest' _ hNext
      obtain rfl : rest' = [] := by
        rcases hNext with h | h
        · exact h
        · simpa using h
      cases n' <;> rfl
  | succ n ih =>
    refine Reads.of_succ (F := definitionsWithin) (fun _ _ => rfl) (fun n' hn' => ?_) hn'
    unfold definitionsWithin
    refine Reads.skipLines fun lines rest hRest hLines _ => ?_
    rw [hRest, List.length_append] at hn
    -- All is taken, so the end of the source is where it was when something else was behind.
    have hEnd : ∀ {later}, lines ++ later = c.rest → later = rest :=
      fun h => List.append_cancel_left (h.trans hRest)
    refine Reads.peek (fun _ hds => by rw [← hEnd hds.1]; rfl) ?_
    cases rest with
    | nil =>
      refine reads_pure ⟨hRest.symm, [], .nil, ?_⟩
      exact .close hLines rfl
    | cons _ _ =>
      refine reads_definition.bind ?_ fun row _ _ hRow => hRow.lined.lines hLines
      intro d row rest' hRest' hDefinition
      have hSome : 0 < row.length := List.length_pos_iff.mpr hDefinition.ne_nil
      have hBegins : Begins (LinedOf [] (Definition.Written True))
          (tokensOf lines ++ (tokensOf row ++ [])) := by
        rw [List.append_nil]
        exact (begins_of_written hDefinition.written).lined.lines hLines
      have hRowEnd : ∀ {later}, lines ++ (row ++ later) = c.rest → later = rest' :=
        fun h => List.append_cancel_left ((hEnd h).trans hRest')
      rw [show _ :: _ = row ++ rest' from hRest', List.length_append] at hn
      refine Reads.peek (fun _ hds => by rw [← hRowEnd hds.1]; rfl) ?_
      cases rest' with
      | nil =>
        refine reads_pure ⟨?_, [row], .cons hDefinition .nil, .last hLines row rfl⟩
        rw [hRest, show _ :: _ = row ++ [] from hRest']
      | cons l rest' =>
        rw [List.head?_cons, Option.map_some]
        cases hLine : l.token with
        | newline =>
          rw [List.length_cons] at hn
          obtain ⟨n, rfl⟩ := Nat.exists_eq_add_one.mpr (show 0 < n by omega)
          refine Reads.map ?_
          refine Reads.of_succ (F := definitionsWithin)
            (fun _ hds => absurd (hRowEnd hds.1) (List.cons_ne_nil l rest').symm) (fun n' hn' => ?_)
            (show k - lines.length - row.length ≤ n' by omega)
          refine Reads.behind rfl (fun rest => run_skipLines_cons hLine rest _)
            (fun rest => run_skipLines_cons hLine rest _) ?_
          have hLater := @ih ⟨rest', l.span.stop⟩ (n' + 1) (k - lines.length - row.length - 1)
            (show rest'.length ≤ n + 1 by omega) (by omega)
          refine hLater.imp ?_ ?_
          · rintro ds later _ - ⟨rfl, rows, hRows, hLined⟩
            refine ⟨?_, _, .cons hDefinition hRows, .more hLines row hLine hLined⟩
            rw [hRest, show _ :: _ = row ++ _ from hRest']
          · intro later _ _ hLater
            rw [hLine]
            exact (hLater.lined_more hDefinition.written).lines hLines
        | _ => exact reads_stuck hBegins

/-- **What becomes of reading a script**: all tokens are taken, or reading stops behind a row that a
script can begin with. -/
theorem reads_file :
    Reads length file file (fun f row => row = c.rest ∧ SourceFile.Placed f row)
      (Begins (SourceFile.Written True)) c := by
  unfold file
  refine Reads.place (fun _ hf => hf.1.symm) ?_
  refine Reads.remaining fun k n _ hn => ?_
  refine (reads_definitionsWithin _ n (Nat.le_refl _) hn).bind ?_ ?_
  · rintro ds row _ - ⟨hAll, rows, hRows, hLined⟩
    refine Reads.spanFrom (reads_pure ?_)
    rw [List.append_nil]
    exact ⟨hAll, .lines hRows hLined⟩
  · rintro row _ - ⟨ds, later, rows, hRows, hLined⟩
    exact ⟨⟨ds, ⟨0, 0⟩⟩, later, .lines hRows hLined⟩

end Reading

/-! ## Sources -/

/-- Some script is written as the tokens. -/
def IsSentence (ts : List Token) : Prop := ∃ f : SourceFile, f.Written True ts

/-- Some script begins with the tokens. -/
def IsSentencePrefix (ts : List Token) : Prop := ∃ later, IsSentence (ts ++ later)

/-- The first place at which no script goes on: a token such that those before it begin a script,
but not with it, or the end of a source of a size, where more tokens are needed. -/
inductive SyntaxError.IsFirstImpossible (size : Nat) (tokens : List Lexeme) : SyntaxError → Prop
  | atToken {before later : List Lexeme} {t : Lexeme} (hTokens : tokens = before ++ t :: later)
      (hBefore : IsSentencePrefix (tokensOf before))
      (hNot : ¬ IsSentencePrefix (tokensOf (before ++ [t]))) :
      SyntaxError.IsFirstImpossible size tokens ⟨some t.token, t.span⟩
  | atEnd (h : IsSentencePrefix (tokensOf tokens)) :
      SyntaxError.IsFirstImpossible size tokens ⟨none, ⟨size, size⟩⟩

theorem parseTokens_ok_of_isSentence {size : Nat} {tokens : List Lexeme}
    (h : IsSentence (tokensOf tokens)) : ∃ f, parseTokens size tokens = .ok f := by
  obtain ⟨f, hWritten⟩ := h
  obtain ⟨g, hParsed, -⟩ := parseTokens_written hWritten size
  exact ⟨g, hParsed⟩

/-- Where reading stops at a token, no script goes on with it. -/
theorem not_isSentencePrefix {size : Nat} {before later : List Lexeme} {t : Lexeme}
    (h : Reading.file.run ⟨before ++ t :: later, size⟩ = .error (t :: later)) :
    ¬ IsSentencePrefix (tokensOf (before ++ [t])) := by
  rintro ⟨more, hSentence⟩
  -- The script would be read from these tokens, which begin alike.
  let other : List Lexeme := more.map fun u => ⟨u, ⟨0, 0⟩⟩
  have hOther : tokensOf other = more := by simp [other, tokensOf, Function.comp_def]
  obtain ⟨f, hParsed⟩ : ∃ f, parseTokens size (before ++ t :: other) = .ok f := by
    apply parseTokens_ok_of_isSentence
    rwa [tokensOf_append, tokensOf_cons, hOther, List.append_cons, ← tokensOf_nil, ← tokensOf_cons,
      ← tokensOf_append]
  have hOutcome : Reading.Reads (before ++ t :: other).length _ _ _ _
      ⟨before ++ t :: later, size⟩ := Reading.reads_file
  cases hOutcome with
  | takes f row rest _ hRun => exact absurd (h.symm.trans hRun) (by simp)
  | stops row rest hRest hRun _ hLike =>
    obtain rfl := Except.error.inj (h.symm.trans hRun)
    obtain rfl : before = row := List.append_cancel_right hRest
    have hStops := hLike t other rfl (Nat.le_refl _)
    unfold parseTokens at hParsed
    rw [hStops] at hParsed
    exact absurd hParsed (by simp)

/-- What reading tokens gives: the file of a sentence, or an error at the first place at which no
script goes on. -/
theorem parseTokens_outcome (size : Nat) (tokens : List Lexeme) :
    (IsSentence (tokensOf tokens) ∧ ∃ f, parseTokens size tokens = .ok f) ∨
      (¬ IsSentence (tokensOf tokens) ∧ ∃ e, parseTokens size tokens = .error e ∧
        e.IsFirstImpossible size tokens) := by
  by_cases hSentence : IsSentence (tokensOf tokens)
  · exact Or.inl ⟨hSentence, parseTokens_ok_of_isSentence hSentence⟩
  refine Or.inr ⟨hSentence, ?_⟩
  have hOutcome : Reading.Reads 0 _ _ _ _ ⟨tokens, size⟩ := Reading.reads_file
  -- A file that is read is a sentence. A reader that stops has read the beginning of one.
  cases hOutcome with
  | takes f row rest hRest _ h =>
    obtain ⟨rfl, hPlaced⟩ := h
    exact absurd ⟨f, hPlaced.written⟩ hSentence
  | stops before rest hRest hRun hViable _ =>
    obtain rfl : tokens = before ++ rest := hRest
    obtain ⟨f, more, hWritten⟩ := hViable
    have hBefore : IsSentencePrefix (tokensOf before) := ⟨more, f, hWritten⟩
    unfold parseTokens
    rw [hRun]
    cases rest with
    | nil =>
      rw [List.append_nil]
      exact ⟨_, rfl, .atEnd hBefore⟩
    | cons t later => exact ⟨_, rfl, .atToken rfl hBefore (not_isSentencePrefix hRun)⟩

/-- **A syntax error stands at the first token that no script has there.** The tokens of a source
are read as a script exactly if some script is written as them. Otherwise there is one syntax error
behind the lexical ones: at the first token such that the tokens before it begin a script, but not
with it; or at the end, if all of them begin a script. -/
theorem parse_stops_at_first_impossible (source : String) :
    (IsSentence (tokensOf (lex source).tokens) ∧
      ∃ f, parse source = ⟨some f, (lex source).errors.map Fault.lexical⟩) ∨
    (¬ IsSentence (tokensOf (lex source).tokens) ∧
      ∃ e, parse source = ⟨none, (lex source).errors.map Fault.lexical ++ [.grammatical e]⟩ ∧
        e.IsFirstImpossible source.utf8ByteSize (lex source).tokens) := by
  unfold parse
  rcases parseTokens_outcome source.utf8ByteSize (lex source).tokens with
    ⟨hSentence, f, hParsed⟩ | ⟨hSentence, e, hParsed, hFirst⟩
  · refine Or.inl ⟨hSentence, f, ?_⟩
    simp only [hParsed]
  · refine Or.inr ⟨hSentence, e, ?_, hFirst⟩
    simp only [hParsed]

end ArrayEquations.Script
