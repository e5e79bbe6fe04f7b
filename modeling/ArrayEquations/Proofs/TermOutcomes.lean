import ArrayEquations.Proofs.ReadOutcomes
import ArrayEquations.Proofs.ReadTerms

/-!
# ArrayEquations — what becomes of reading a term

Whatever the tokens are, the reader of each strength takes a row that makes up a term of the
strength, every part at its own place, or stops behind a row that such a term can begin with.

A chain is taken from the left. What its reader has taken so far is the left operand of whatever
comes next, so that the reader which goes on with a chain carries the row of it.

## Main definitions

* `TermBegins` — the rows that a term of a strength can begin with.
* `ReadsTerm` — what becomes of a reader of terms.

## Main results

* `reads_termWithin`, `reads_term` — what becomes of reading a term.
-/

namespace ArrayEquations.Script

/-! ## Weaker terms -/

variable {e lhs : Term} {l k : Strength} {row : List Lexeme} {ts us : List Token}

theorem Term.Placed.mono (h : e.Placed k row) (hle : l ≤ k) : e.Placed l row := by
  cases h with
  | number h => exact .number h
  | dims h => exact .dims h
  | var h => exact .var h
  | call hCallee hOpen hLength h hRow => exact .call hCallee hOpen hLength h hRow
  | neg hStrength hMinus h => exact .neg (Nat.le_trans hle hStrength) hMinus h
  | binary hStrength hLeft hOp hRight => exact .binary (Nat.le_trans hle hStrength) hLeft hOp hRight
  | named hStrength h hNaming hName hDependsOn =>
    exact .named (Nat.le_trans hle hStrength) h hNaming hName hDependsOn
  | brackets hOpen h hClose => exact .brackets hOpen h hClose

theorem Term.Written.mono (h : e.Written True k ts) (hle : l ≤ k) : e.Written True l ts := by
  cases h with
  | number h => exact .number h
  | dims h => exact .dims h
  | var => exact .var
  | call hLength h hRow => exact .call hLength h hRow
  | neg hStrength h => exact .neg (Nat.le_trans hle hStrength) h
  | binary hStrength hLeft hRight => exact .binary (Nat.le_trans hle hStrength) hLeft hRight
  | named hStrength h hDependsOn => exact .named (Nat.le_trans hle hStrength) h hDependsOn
  | brackets _ h => exact .brackets (Or.inl trivial) h

namespace Reading

/-! ## Rows that terms begin with -/

/-- The rows that a term of a strength can begin with. -/
abbrev TermBegins (l : Strength) : List Token → Prop := Begins (Term.Written True l)

theorem TermBegins.mono (h : TermBegins k ts) (hle : l ≤ k) : TermBegins l ts := by
  obtain ⟨e, later, he⟩ := h
  exact ⟨e, later, he.mono hle⟩

theorem termBegins_nil : TermBegins l [] := ⟨.number ⟨0, 0⟩ (Float.ofNat 0), [.int 0], .number rfl⟩

theorem TermBegins.neg (h : TermBegins .unary ts) : TermBegins .unary (.mark .minus :: ts) := by
  obtain ⟨e, later, he⟩ := h
  exact ⟨.neg ⟨0, 0⟩ e, later, .neg (by decide) he⟩

/-- Behind an operator comes its right operand. -/
theorem TermBegins.binary (op : BinaryOp) (hLeft : lhs.Written True op.leftStrength us)
    (h : TermBegins op.rightStrength ts) :
    TermBegins op.strength (us ++ .mark op.mark :: ts) := by
  obtain ⟨e, later, he⟩ := h
  refine ⟨.binary ⟨0, 0⟩ op lhs e, later, ?_⟩
  rw [List.append_assoc]
  exact .binary (Nat.le_refl _) hLeft he

theorem TermBegins.brackets (h : TermBegins .naming ts) :
    TermBegins .atom (.mark .leftParen :: ts) := by
  obtain ⟨e, later, he⟩ := h
  refine ⟨e, later ++ [.mark .rightParen], ?_⟩
  rw [List.cons_append, ← List.append_assoc]
  exact .brackets (Or.inl trivial) he

/-- Whole numbers on their own are rows of one token. -/
theorem enclosedOf_naturals {ns : List Nat} {closing : Mark}
    (h : EnclosedOf closing (fun n row => row = [.int n]) ns ts) :
    Enclosed closing (ns.map fun n => [.int n]) ts := by
  obtain ⟨rows, hRows, hRow⟩ := h
  rw [← rows_eq_map hRows]
  exact hRow

/-- Names on their own are rows of one token. -/
theorem separatedOf_names {names : List Identifier}
    (h : SeparatedOf (fun n row => row = [.identifier (Identifier.name n)]) names ts) :
    Separated (names.map fun n => [.identifier n.name]) ts := by
  obtain ⟨rows, hRows, hRow⟩ := h
  rw [← rows_eq_map hRows]
  exact hRow

/-! ## Lists of numbers and of names -/

variable {length : Nat} {c : Cursor}

/-- A row of dimensions is written with square brackets. -/
def DimsWritten (ns : List Nat) (ts : List Token) : Prop :=
  ∃ us, ts = .mark .leftBracket :: us ∧ Enclosed .rightBracket (ns.map fun n => [.int n]) us

/-- Whole numbers between square brackets are taken. -/
theorem reads_dims : Reads length dims dims DimsPlaced (Begins DimsWritten) c := by
  have hItem : ReadsUpTo c.rest.length length natural natural IsNatural
      (Begins fun n row => row = [.int n]) :=
    fun c k _ _ => reads_natural ⟨0, [.int 0], rfl⟩
  unfold dims
  refine Reads.expectMark ⟨[], [.mark .leftBracket, .mark .rightBracket], _, rfl, .close⟩ ?_
  intro o rest hRest hOpen
  refine Reads.imp (reads_closed hItem (fun _ h => h.ne_nil rfl)
    (fun _ _ hn => hn.tokensOf_eq) ?_ (Nat.sub_le _ _)) ?_ ?_
  · rw [hRest]
    exact Nat.le_succ _
  · rintro ns row _ - ⟨rows, hRows, hRow⟩
    exact .list hOpen hRows hRow
  · rintro row _ - ⟨ns, later, hLater⟩
    exact ⟨ns, later, _, rfl, enclosedOf_naturals hLater⟩

/-- The names in brackets behind a naming are taken, if a bracket opens. -/
theorem reads_dependencies :
    Reads length dependencies dependencies DependenciesPlaced (Begins DependenciesWritten) c := by
  -- At any place a name may stand, and one name is enough to go on.
  have hStart : Begins (fun n row => row = [Token.identifier (Identifier.name n)]) [] :=
    ⟨⟨"x", ⟨0, 0⟩⟩, [.identifier "x"], rfl⟩
  have hItem : ReadsUpTo c.rest.length length identifier identifier Identifier.Placed
      (Begins fun n row => row = [.identifier (Identifier.name n)]) :=
    fun c k _ _ => reads_identifier hStart
  unfold dependencies
  refine Reads.accept (fun o rest hRest hOpen => ?_) fun _ => reads_pure .absent
  refine Reads.bind (reads_items hItem (fun _ h => h.ne_nil rfl) (fun _ _ hn => hn.tokensOf_eq)
    hStart ?_ (Nat.sub_le _ _)) ?_ ?_
  · rw [hRest]
    exact Nat.le_succ _
  · rintro names row _ - ⟨rows, hRows, hRow⟩
    refine Reads.expectMark ?_ fun l _ _ hClose => reads_pure (.names hOpen hRows hRow hClose)
    refine ⟨some names, [.mark .rightParen], ?_⟩
    rw [List.append_nil]
    exact .names (separatedOf_names
      ⟨_, written_rows hRows fun _ _ hn => hn.tokensOf_eq, hRow.written⟩)
  · rintro row _ - ⟨names, later, hLater⟩
    refine ⟨some names, later ++ [.mark .rightParen], ?_⟩
    rw [List.cons_append, ← List.append_assoc]
    exact .names (separatedOf_names hLater)

/-! ## Readers of terms -/

/-- What becomes of a reader of terms of a strength. -/
abbrev ReadsTerm (left length : Nat) (m m' : Reading Term) (l : Strength) : Prop :=
  ReadsUpTo left length m m' (Term.Placed l) (TermBegins l)

variable {left : Nat} {m m' inner inner' operand operand' : Reading Term}

/-- The place of what is taken behind a row is found from the start of the row. -/
theorem start_eq {l : Lexeme} {rest : List Lexeme} (hRest : c.rest = l :: rest) :
    start c = l.span.start := by
  rw [start, hRest]
  rfl

/-- Behind a name and a bracket come arguments. -/
theorem TermBegins.call (name : String)
    (h : Begins (EnclosedOf .rightParen (Term.Written True .naming)) ts) :
    TermBegins .atom (.identifier name :: .mark .leftParen :: ts) := by
  obtain ⟨arguments, later, rows, hRows, hRow⟩ := h
  obtain ⟨hLength, hZip⟩ := List.forall₂_iff_zip.mp hRows
  exact ⟨.call ⟨0, 0⟩ ⟨name, ⟨0, 0⟩⟩ arguments, later, .call hLength (fun _ hp => hZip hp) hRow⟩

/-- A call is taken, or a name alone. -/
theorem reads_varOrCall {k : Nat} (h : ReadsTerm left length inner inner' .naming)
    (hLeft : c.rest.length ≤ left + 1) (hk : k ≤ length + 1) :
    Reads k
      (do
        let name ← identifier
        if ← accept (.mark .leftParen) then
          let arguments ← closed inner .rightParen
          return .call (← spanFrom (start c)) name arguments
        return .var name)
      (do
        let name ← identifier
        if ← accept (.mark .leftParen) then
          let arguments ← closed inner' .rightParen
          return .call (← spanFrom (start c)) name arguments
        return .var name)
      (Term.Placed .atom) (TermBegins .atom) c := by
  refine (reads_identifier termBegins_nil).bind ?_ fun _ _ _ => id
  rintro name _ rest hRest ⟨t, rfl, hName⟩
  rw [start_eq hRest]
  rw [hRest, List.singleton_append, List.length_cons] at hLeft
  refine Reads.accept (fun o rest' hRest' hOpen => ?_) fun _ => reads_pure (.var hName)
  obtain rfl : rest = o :: rest' := hRest'
  rw [List.length_cons] at hLeft
  refine Reads.bind (reads_closed h (fun _ he => he.ne_nil rfl) (fun _ _ he => he.written)
    (show rest'.length ≤ left by omega) (by rw [List.length_singleton]; omega)) ?_ ?_
  · rintro arguments row _ - ⟨rows, hRows, hRow⟩
    refine Reads.spanFrom (reads_pure ?_)
    rw [List.append_nil]
    obtain ⟨hLength, hZip⟩ := List.forall₂_iff_zip.mp hRows
    exact .call hName hOpen hLength (fun _ hp => hZip hp) hRow
  · intro row _ _ hRow
    show TermBegins .atom (t.token :: _)
    rw [hName.1]
    exact TermBegins.call name.name hRow

/-- An atom is taken, where a token at least goes before the terms inside it. -/
theorem reads_atom (h : ReadsTerm left length inner inner' .naming) :
    ReadsTerm (left + 1) (length + 1) (atom inner) (atom inner') .atom := by
  intro c k hLeft hk
  unfold atom
  refine Reads.place (fun _ he => absurd rfl he.ne_nil) ?_
  refine Reads.peek (fun _ he => absurd rfl he.ne_nil) ?_
  cases hRest : c.rest with
  | nil => exact reads_stuck termBegins_nil
  | cons t rest =>
    rw [List.head?_cons, Option.map_some]
    cases hToken : t.token with
    | int n =>
      rw [start_eq hRest]
      exact Reads.advance hRest (Reads.spanFrom (reads_pure (.number (by rw [hToken]; rfl))))
    | decimal x =>
      rw [start_eq hRest]
      exact Reads.advance hRest (Reads.spanFrom (reads_pure (.number (by rw [hToken]; rfl))))
    | identifier name => exact reads_varOrCall h hLeft hk
    | mark m =>
      cases m with
      | leftBracket =>
        -- The bracket is not taken yet: dimensions begin with it.
        refine reads_dims.bind ?_ ?_
        · intro ns row rest' hRest' hDims
          refine Reads.spanFrom (reads_pure ?_)
          have hSpan := span_eq_spanOf hRest' hDims.ne_nil []
          rw [List.append_nil] at hSpan ⊢
          rw [← endOf_nil (endOf row c.reached), hSpan]
          exact .dims hDims
        · rintro row _ - ⟨ns, later, us, hRow, hUs⟩
          refine ⟨.dims ⟨0, 0⟩ ns, later, ?_⟩
          rw [hRow]
          exact .dims hUs
      | leftParen =>
        -- Behind the bracket there is a token less, as the bound of the reader inside asks for.
        rw [hRest, List.length_cons] at hLeft
        refine Reads.advance hRest ?_
        refine (h _ _ (show rest.length ≤ left by omega) (by omega)).bind ?_ ?_
        · intro e row _ _ he
          refine Reads.expectMark ?_ fun l _ _ hClose => reads_pure (.brackets hToken he hClose)
          rw [List.append_nil, hToken]
          exact TermBegins.brackets (begins_of_written he.written)
        · intro row _ _ hRow
          rw [hToken]
          exact TermBegins.brackets hRow
      | _ => exact reads_stuck termBegins_nil
    | _ => exact reads_stuck termBegins_nil

/-- A negation or a power is taken. -/
theorem reads_unaryWithin (h : ReadsTerm left length m m' .atom) (n n' : Nat) {k : Nat}
    (hLeft : c.rest.length ≤ left) (hn : c.rest.length ≤ n) (hk : k ≤ length) (hn' : k ≤ n') :
    Reads k (unaryWithin m n) (unaryWithin m' n') (Term.Placed .unary) (TermBegins .unary) c := by
  induction n generalizing c k n' with
  | zero =>
    exact reads_exhausted hn termBegins_nil
  | succ n ih =>
    refine Reads.of_succ (F := unaryWithin m') (fun _ he => absurd rfl he.ne_nil)
      (fun n' hn' => ?_) hn'
    unfold unaryWithin
    refine Reads.place (fun _ he => absurd rfl he.ne_nil) ?_
    refine Reads.accept (fun t rest hRest hMinus => ?_) fun _ => ?_
    · rw [hRest, List.length_cons] at hLeft hn
      rw [start_eq hRest]
      -- The operand is shorter by the minus sign, so that the fuel suffices for it.
      have hOperand := @ih ⟨rest, t.span.stop⟩ n' (k - 1) (show rest.length ≤ left by omega)
        (show rest.length ≤ n by omega) (by omega) (by omega)
      refine hOperand.bind ?_ fun row _ _ => TermBegins.neg
      intro e row _ _ he
      refine Reads.spanFrom (reads_pure ?_)
      rw [List.append_nil]
      exact .neg (by decide) hMinus he
    · refine (h c k hLeft hk).bind ?_ fun _ _ _ hRow => TermBegins.mono hRow (by decide)
      intro base row rest hRest hBase
      have hSome : 0 < row.length := List.length_pos_iff.mpr hBase.ne_nil
      rw [hRest, List.length_append] at hLeft hn
      refine Reads.accept (fun t rest' hRest' hCaret => ?_) fun _ => reads_pure ?_
      · obtain rfl : rest = t :: rest' := hRest'
        rw [List.length_cons] at hLeft hn
        have hExponent := @ih ⟨rest', t.span.stop⟩ n' (k - row.length - 1)
          (show rest'.length ≤ left by omega) (show rest'.length ≤ n by omega) (by omega) (by omega)
        refine hExponent.bind ?_ fun _ _ _ => TermBegins.binary (.arith .pow) hBase.written
        intro e later _ _ he
        refine Reads.spanFrom (reads_pure ?_)
        rw [List.append_nil]
        have hSpan := span_eq_spanOf hRest hBase.ne_nil (t :: later)
        rw [endOf_cons] at hSpan
        show Term.Placed .unary (.binary ⟨start c, endOf later t.span.stop⟩ _ base e) _
        rw [hSpan]
        exact .binary (by decide) hBase hCaret he
      · rw [List.append_nil]
        exact hBase.mono (by decide)

theorem reads_unary (h : ReadsTerm left length m m' .atom) :
    ReadsTerm left length (unary m) (unary m') .unary := by
  intro c k hLeft hk
  unfold unary
  exact Reads.remaining fun k' n' hk' hn' => reads_unaryWithin h c.rest.length n' hLeft
    (Nat.le_refl _) (Nat.le_trans hk' hk) hn'

/-! ## Chains -/

variable {op? : Token → Option BinaryOp}

/-- Where an operator comes next it is taken, with what is done then; otherwise nothing is. -/
theorem reads_operator {f f' : BinaryOp → Reading Term} {R : Term → List Lexeme → Prop}
    {Viable : List Token → Prop}
    (hNone : R lhs [])
    (hSome : ∀ t rest op, c.rest = t :: rest → op? t.token = some op →
      Reads (length - 1) (f op) (f' op) (fun e later => R e (t :: later))
        (fun ts => Viable (t.token :: ts)) ⟨rest, t.span.stop⟩) :
    Reads length
      (do
        match (← peek).bind op? with
        | none => return lhs
        | some op =>
          advance
          f op)
      (do
        match (← peek).bind op? with
        | none => return lhs
        | some op =>
          advance
          f' op)
      R Viable c := by
  cases hOp : (c.rest.head?.map (·.token)).bind op? with
  | none =>
    refine Reads.peek (fun _ _ => ?_) ?_
    · simp only [hOp, Option.bind_none]
    · simp only [hOp]
      exact reads_pure hNone
  | some op =>
    obtain ⟨t, rest, hRest, hToken⟩ : ∃ t rest, c.rest = t :: rest ∧ op? t.token = some op := by
      cases hRest : c.rest with
      | nil => exact absurd hOp (by simp [hRest])
      | cons t rest => exact ⟨t, rest, rfl, by simpa [hRest] using hOp⟩
    -- The operator is part of what is taken, so that what comes next matters.
    refine Reads.imp (P := fun e row => row ≠ [] ∧ R e row) ?_ (fun _ _ _ _ => And.right)
      fun _ _ _ => id
    refine Reads.peek (fun _ h => absurd rfl h.1) ?_
    simp only [hOp]
    refine Reads.advance hRest ((hSome t rest op hRest hToken).imp ?_ fun _ _ _ => id)
    exact fun e later _ _ he => ⟨List.cons_ne_nil t later, he⟩

/-- **A chain goes on** from its row so far. -/
theorem reads_chainFrom {before : List Lexeme} {place : Nat} (hPicks : PicksOperators op? l)
    (hSides : ∀ op : BinaryOp, op.strength = l → op.leftStrength = l ∧ op.rightStrength = k)
    (h : ReadsTerm left length operand operand' k) (n n' : Nat) {j : Nat}
    (hLhs : lhs.Placed l before)
    (hSpan : ∀ later, (⟨place, endOf later c.reached⟩ : Span) = spanOf (before ++ later))
    (hLeft : c.rest.length ≤ left) (hn : c.rest.length ≤ n) (hj : j ≤ length) (hn' : j ≤ n') :
    Reads j (chainFrom op? operand place n lhs) (chainFrom op? operand' place n' lhs)
      (fun e row => e.Placed l (before ++ row)) (fun ts => TermBegins l (tokensOf before ++ ts))
      c := by
  induction n generalizing lhs before c n' j with
  | zero =>
    have hNil : c.rest = [] := List.length_eq_zero_iff.mp (Nat.le_zero.mp hn)
    refine .takes lhs [] [] hNil ?_ (by rwa [List.append_nil]) ?_
    · exact congrArg (fun rest => Except.ok (lhs, (⟨rest, c.reached⟩ : Cursor))) hNil
    rintro rest' - (rfl | hNext)
    · cases n' <;> rfl
    · obtain rfl : rest' = [] := by simpa using hNext
      cases n' <;> rfl
  | succ n ih =>
    refine Reads.of_succ (F := fun n => chainFrom op? operand' place n lhs) (fun _ _ => rfl)
      (fun n' hn' => ?_) hn'
    unfold chainFrom
    refine reads_operator (by rwa [List.append_nil]) fun t rest op hRest hToken => ?_
    -- With the operator and its right operand, the row so far is that of a left operand again.
    obtain ⟨rfl, hMark⟩ := (hPicks t.token op).mp hToken
    obtain ⟨hLeftSide, hRightSide⟩ := hSides op rfl
    rw [hRest, List.length_cons] at hLeft hn
    refine (h ⟨rest, t.span.stop⟩ (j - 1) (show rest.length ≤ left by omega) (by omega)).bind ?_ ?_
    · intro rhs right rest' hRest' hRhs
      obtain rfl : rest = right ++ rest' := hRest'
      rw [List.length_append] at hLeft hn
      refine Reads.spanFrom ?_
      have hWhole : ∀ later, (⟨place, endOf later (endOf right t.span.stop)⟩ : Span) =
          spanOf ((before ++ t :: right) ++ later) := by
        intro later
        have hSame := hSpan (t :: right ++ later)
        rwa [List.cons_append, endOf_cons, endOf_append, ← List.cons_append,
          ← List.append_assoc] at hSame
      have hBinary : (Term.binary ⟨place, endOf right t.span.stop⟩ op lhs rhs).Placed
          op.strength (before ++ t :: right) := by
        have hSame := hWhole []
        rw [endOf_nil, List.append_nil] at hSame
        rw [hSame]
        exact .binary (Nat.le_refl _) (hLeftSide ▸ hLhs) hMark (hRightSide ▸ hRhs)
      have hMore := @ih _ ⟨rest', endOf right t.span.stop⟩ _ n' (j - 1 - right.length) hBinary
        hWhole (show rest'.length ≤ left by omega) (show rest'.length ≤ n by omega) (by omega)
        (by omega)
      refine hMore.imp (fun e later _ _ he => ?_) fun later _ _ hRow => ?_
      · rwa [List.append_assoc] at he
      · rwa [tokensOf_append, tokensOf_cons, List.append_assoc] at hRow
    · intro row _ _ hRow
      rw [hMark]
      have hWritten : lhs.Written True op.leftStrength (tokensOf before) := by
        rw [hLeftSide]
        exact hLhs.written
      exact TermBegins.binary op hWritten (hRightSide ▸ hRow)

theorem reads_chain (hPicks : PicksOperators op? l) (hStronger : l ≤ k)
    (hSides : ∀ op : BinaryOp, op.strength = l → op.leftStrength = l ∧ op.rightStrength = k)
    (h : ReadsTerm left length operand operand' k) :
    ReadsTerm left length (chain op? operand) (chain op? operand') l := by
  intro c j hLeft hj
  unfold chain
  refine Reads.place (fun _ he => absurd rfl he.ne_nil) ?_
  refine (h c j hLeft hj).bind ?_ fun _ _ _ hRow => TermBegins.mono hRow hStronger
  intro e row rest hRest he
  refine Reads.remaining fun j' n' hj' hn' => ?_
  rw [hRest, List.length_append] at hLeft
  exact reads_chainFrom hPicks hSides h _ n' (he.mono hStronger)
    (span_eq_spanOf hRest he.ne_nil) (show rest.length ≤ left by omega) (Nat.le_refl _)
    (by omega) hn'

/-! ## Comparisons and namings -/

theorem reads_comparison (h : ReadsTerm left length operand operand' .sum) :
    ReadsTerm left length (comparison operand) (comparison operand') .comparison := by
  intro c j hLeft hj
  unfold comparison
  refine Reads.place (fun _ he => absurd rfl he.ne_nil) ?_
  refine (h c j hLeft hj).bind ?_ fun _ _ _ hRow => TermBegins.mono hRow (by decide)
  intro lhs row rest hRest hLhs
  refine reads_operator ?_ fun t rest' op hRest' hToken => ?_
  · rw [List.append_nil]
    exact hLhs.mono (by decide)
  obtain ⟨hStrength, hMark⟩ := (picks_comparisonOp? t.token op).mp hToken
  -- A comparison does not chain: both of its sides are sums.
  obtain ⟨hLeftSide, hRightSide⟩ : op.leftStrength = .sum ∧ op.rightStrength = .sum := by
    rcases op with (_ | _ | _ | _ | _) | _ | _ <;> first | exact ⟨rfl, rfl⟩ | cases hStrength
  obtain rfl : rest = t :: rest' := hRest'
  rw [hRest, List.length_append, List.length_cons] at hLeft
  refine (h ⟨rest', t.span.stop⟩ _ (show rest'.length ≤ left by omega) (by omega)).bind ?_ ?_
  · intro rhs right _ _ hRhs
    refine Reads.spanFrom (reads_pure ?_)
    rw [List.append_nil]
    have hSpan := span_eq_spanOf hRest hLhs.ne_nil (t :: right)
    rw [endOf_cons] at hSpan
    show Term.Placed .comparison (.binary ⟨start c, endOf right t.span.stop⟩ op lhs rhs) _
    rw [hSpan]
    refine .binary (Nat.le_of_eq ?_) (hLeftSide ▸ hLhs) hMark (hRightSide ▸ hRhs)
    rw [hStrength]
  · intro later _ _ hRow
    have hWritten : lhs.Written True op.leftStrength (tokensOf row) := by
      rw [hLeftSide]
      exact hLhs.written
    rw [hMark, ← hStrength]
    exact TermBegins.binary op hWritten (hRightSide ▸ hRow)

theorem reads_naming (h : ReadsTerm left length operand operand' .comparison) :
    ReadsTerm left length (naming operand) (naming operand') .naming := by
  intro c j hLeft hj
  unfold naming
  refine Reads.place (fun _ he => absurd rfl he.ne_nil) ?_
  refine (h c j hLeft hj).bind ?_ fun _ _ _ hRow => TermBegins.mono hRow (by decide)
  intro value row rest hRest hValue
  have hWritten := hValue.written
  refine Reads.accept (fun t rest' hRest' hNaming => ?_) fun _ => reads_pure ?_
  · -- Whatever the name will be, the row so far begins a named term.
    have hBegins : TermBegins .naming (tokensOf row ++ [.keyword .naming]) := by
      refine ⟨.named ⟨0, 0⟩ value ⟨"x", ⟨0, 0⟩⟩ none, [.identifier "x"], ?_⟩
      rw [List.append_assoc]
      exact .named (Nat.le_refl _) hWritten .absent
    have hName : Reads (j - row.length - 1) identifier identifier Identifier.Placed
        (fun ts => TermBegins .naming (tokensOf row ++ .keyword .naming :: ts))
        ⟨rest', t.span.stop⟩ := reads_identifier hBegins
    refine hName.bind ?_ fun _ _ _ => id
    rintro name _ rest'' _ ⟨n, rfl, hName⟩
    refine reads_dependencies.bind ?_ ?_
    · intro dependsOn later _ _ hDependsOn
      refine Reads.spanFrom (reads_pure ?_)
      rw [List.append_nil]
      have hSpan := span_eq_spanOf hRest hValue.ne_nil (t :: n :: later)
      rw [endOf_cons, endOf_cons] at hSpan
      show Term.Placed .naming (.named ⟨start c, endOf later n.span.stop⟩ value name dependsOn) _
      rw [hSpan]
      exact .named (Nat.le_refl _) hValue hNaming hName hDependsOn
    · rintro later _ _ ⟨dependsOn, us, hLater⟩
      refine ⟨.named ⟨0, 0⟩ value name dependsOn, us, ?_⟩
      rw [List.append_assoc, tokensOf_cons, hName.1]
      exact .named (Nat.le_refl _) hWritten hLater
  · rw [List.append_nil]
    exact hValue.mono (by decide)

/-! ## Terms -/

theorem reads_termWithin (n n' : Nat) : ReadsTerm n n' (termWithin n) (termWithin n') .naming := by
  induction n generalizing n' with
  | zero =>
    intro c k hLeft _
    exact reads_exhausted hLeft termBegins_nil
  | succ n ih =>
    intro c k hLeft hk
    refine Reads.of_succ (F := termWithin) (fun _ he => absurd rfl he.ne_nil)
      (fun n' hn' => ?_) hk
    unfold termWithin
    -- The reader of each strength takes operands of the next one, and atoms hold terms again.
    have hUnary := reads_unary (reads_atom (ih n'))
    have hProduct := reads_chain picks_productOp? (by decide) (fun op hOp => ?_) hUnary
    have hSum := reads_chain picks_sumOp? (by decide) (fun op hOp => ?_) hProduct
    · exact reads_naming (reads_comparison hSum) c k hLeft hn'
    · rcases op with (_ | _ | _ | _ | _) | _ | _ <;> first | exact ⟨rfl, rfl⟩ | cases hOp
    · rcases op with (_ | _ | _ | _ | _) | _ | _ <;> first | exact ⟨rfl, rfl⟩ | cases hOp

/-- **What becomes of reading a term**: a row is taken that makes up a term, or reading stops behind
a row that a term can begin with. -/
theorem reads_term : Reads length term term (Term.Placed .naming) (TermBegins .naming) c := by
  unfold term
  exact Reads.remaining fun k n _ hk =>
    reads_termWithin c.rest.length n c k (Nat.le_refl _) hk

end Reading

end ArrayEquations.Script
