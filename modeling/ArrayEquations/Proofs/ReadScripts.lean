import ArrayEquations.Proofs.PlacedScripts
import ArrayEquations.Proofs.ReadTerms

/-!
# ArrayEquations — reading scripts

A written script is read back, places apart: from its tokens, and from any text that spells them.

## Main results

* `Reading.takes_definition`, `Reading.takes_file` — definitions and scripts are taken from the
  front.
* `parse_written` — a script is read back from every text that it can be written as.
-/

namespace ArrayEquations.Script

namespace Reading

variable {ts us : List Token} {rows : List (List Token)} {q : Token → Prop} {spare : Prop}

/-! ## Lines -/

theorem behindLines_newlines {row : List Lexeme} (h : ∀ l ∈ row, l.token = .newline)
    {rest : List Lexeme} (hRest : ∀ l ∈ rest.head?, l.token ≠ .newline) (reached : Nat) :
    behindLines (row ++ rest) reached = ⟨rest, endOf row reached⟩ := by
  induction row generalizing reached with
  | nil =>
    cases rest with
    | nil => rfl
    | cons l rest => rw [List.nil_append, behindLines, if_neg (hRest l rfl), endOf_nil]
  | cons l row ih =>
    rw [List.cons_append, behindLines, if_pos (h l List.mem_cons_self)]
    exact ih (fun l' hl' => h l' (List.mem_cons_of_mem l hl')) _

theorem takes_skipLines (k : Nat) :
    Takes skipLines (List.replicate k .newline) (· = .newline) fun _ => True := by
  intro row rest reached hRow hRest
  have hNewlines : ∀ l ∈ row, l.token = .newline := by
    intro l hl
    have hMem := List.mem_map_of_mem (f := Lexeme.token) hl
    rw [hRow] at hMem
    exact List.eq_of_mem_replicate hMem
  have hBehind := behindLines_newlines hNewlines hRest reached
  exact ⟨(), endOf row reached, congrArg (fun c => Except.ok ((), c)) hBehind, trivial⟩

/-- Line ends before line ends are as many line ends together. -/
theorem replicate_append_replicate (j k : Nat) (ts : List Token) :
    List.replicate j Token.newline ++ (List.replicate k .newline ++ ts) =
      List.replicate (j + k) .newline ++ ts := by
  rw [← List.append_assoc, List.replicate_append_replicate]

/-! ## Parts of definitions -/

theorem takes_parameter {p : Parameter} (h : p.Written ts) :
    Takes parameter ts (· = .mark .colon) fun p' => p'.bare = p.bare := by
  unfold parameter
  cases h with
  | scalar hShape =>
    refine Takes.place fun start => ?_
    refine (takes_identifier p.name.name).last fun name hName => ?_
    refine Takes.decline (stops_nil fun _ => id) ?_
    rw [if_neg (by decide)]
    refine (takes_pure (p := Never) (P := (· = [])) rfl).last fun shape hNone => ?_
    refine Takes.spanFrom start fun span' => takes_pure ?_
    simp [Parameter.bare, Identifier.bare, hName, hNone, hShape]
  | @array ts h =>
    refine Takes.place fun start => ?_
    refine (takes_identifier p.name.name).next fun name hName => Takes.accept ?_
    rw [if_pos rfl, ← List.append_nil ts, ← List.cons_append]
    refine (takes_dims h).next fun shape hShape => ?_
    refine Takes.spanFrom start fun span' => takes_pure ?_
    simp [Parameter.bare, Identifier.bare, hName, hShape]

/-- What may come behind a statement that is not over. -/
def GoesOnStatement (t : Token) : Prop := GoesOn .naming t ∨ t = .mark .comma

theorem takes_statement {s : Statement} (h : s.Written spare ts) :
    Takes statement ts GoesOnStatement fun s' => s'.bare = s.bare := by
  unfold statement
  cases h with
  | @bind span name value ts h =>
    refine Takes.place fun start => Takes.accept ?_
    refine (takes_identifier name.name).next fun name' hName => ?_
    refine (takes_expectMark .equals).next fun _ _ => ?_
    rw [← List.append_nil ts]
    refine (takes_term h).bind (fun value' hSame => ?_) (stops_nil fun _ => Or.inl)
    refine Takes.spanFrom start fun span' => takes_pure ?_
    simp [Statement.bare, Identifier.bare, hName, hSame]
  | @result span values rows ts h hRow =>
    -- A result does not begin like a binding, so that reader is passed over.
    refine Takes.place fun start => Takes.decline (stops_cons (by decide)) ?_
    refine takes_expect.step fun _ _ => ?_
    have hItems : List.Forall₂ (fun e row => row ≠ [] ∧
        Takes term row (GoesOn .naming) fun e' => e'.bare = e.bare) values rows :=
      h.imp fun e row he => by
        obtain ⟨t, us, rfl, -⟩ := opensTerm_of_written he
        exact ⟨List.cons_ne_nil t us, takes_term he⟩
    rw [← List.append_nil ts]
    refine (takes_items hRow hItems (not_goesOn rfl)).bind (fun values' hSame => ?_)
      (stops_nil fun _ => id)
    refine Takes.spanFrom start fun span' => takes_pure ?_
    simp [Statement.bare, map_eq_of_forall₂ hSame]

/-- A statement begins with a keyword. -/
theorem begins_statement {s : Statement} (h : s.Written spare ts) :
    ∃ k us, ts = .keyword k :: us := by
  cases h <;> exact ⟨_, _, rfl⟩

/-- Statements on lines of their own are taken up to the closing brace. -/
theorem takes_statementsWithin {body : List Statement}
    (hLines : Lined [.mark .rightBrace] rows ts)
    (h : List.Forall₂ (Statement.Written spare) body rows) (j : Nat) {fuel : Nat}
    (hFuel : j + ts.length ≤ fuel) :
    Takes (statementsWithin fuel) (List.replicate j .newline ++ ts) Never
      (List.Forall₂ (fun s s' => s'.bare = s.bare) body) := by
  induction hLines generalizing body j fuel with
  | close k =>
    obtain rfl := List.forall₂_nil_right_iff.mp h
    rw [List.length_append, List.length_singleton] at hFuel
    obtain ⟨fuel, rfl⟩ := Nat.exists_eq_add_one.mpr (show 0 < fuel by omega)
    rw [replicate_append_replicate]
    unfold statementsWithin
    refine (takes_skipLines (j + k)).bind (fun _ _ => ?_) (stops_cons (by decide))
    exact Takes.accept (takes_pure .nil)
  | last k row =>
    obtain ⟨s, body, hStatement, hNil, rfl⟩ := List.forall₂_cons_right_iff.mp h
    obtain rfl := List.forall₂_nil_right_iff.mp hNil
    obtain ⟨keyword, us, rfl⟩ := begins_statement hStatement
    rw [List.length_append, List.length_append] at hFuel
    obtain ⟨fuel, rfl⟩ := Nat.exists_eq_add_one.mpr (show 0 < fuel by simp at hFuel; omega)
    rw [replicate_append_replicate]
    unfold statementsWithin
    refine (takes_skipLines (j + k)).bind (fun _ _ => ?_) (stops_cons (by simp))
    refine Takes.decline (stops_cons (by simp)) ?_
    refine (takes_statement hStatement).bind (fun s' hSame => ?_) (stops_cons ?_)
    · refine Takes.peek ?_
      rw [if_neg (by simp)]
      exact (takes_expectMark .rightBrace).last fun _ _ => takes_pure (.cons hSame .nil)
    · rintro (hGoesOn | hComma)
      · exact not_goesOn rfl hGoesOn
      · exact absurd hComma (by decide)
  | @more k row rows ts hLines ih =>
    obtain ⟨s, body, hStatement, hBody, rfl⟩ := List.forall₂_cons_right_iff.mp h
    obtain ⟨keyword, us, rfl⟩ := begins_statement hStatement
    rw [List.length_append, List.length_append, List.length_cons, List.length_cons] at hFuel
    obtain ⟨fuel, rfl⟩ := Nat.exists_eq_add_one.mpr (show 0 < fuel by omega)
    rw [replicate_append_replicate]
    unfold statementsWithin
    refine (takes_skipLines (j + k)).bind (fun _ _ => ?_) (stops_cons (by simp))
    refine Takes.decline (stops_cons (by simp)) ?_
    refine (takes_statement hStatement).bind (fun s' hSame => ?_) (stops_cons ?_)
    · refine Takes.peek ?_
      rw [if_pos rfl]
      -- The line end is still there, as the first one before the later statements.
      exact (ih hBody 1 (show 1 + ts.length ≤ fuel by omega)).map fun ss hss =>
        List.Forall₂.cons hSame hss
    · rintro (hGoesOn | hComma)
      · exact not_goesOn rfl hGoesOn
      · exact absurd hComma (by decide)

/-! ## Definitions and scripts -/

/-- A written definition is taken from the front. -/
theorem takes_definition {d : Definition} (h : d.Written spare ts) :
    Takes definition ts Never fun d' => d'.bare = d.bare := by
  cases h with
  | @parts parameters statements ts us hParameters hList hBody hLines =>
    unfold definition
    refine Takes.place fun start => ?_
    refine takes_expect.step fun _ _ => ?_
    refine (takes_identifier d.name.name).next fun name hName => ?_
    refine (takes_expectMark .leftParen).next fun _ _ => ?_
    -- No parameter begins like the closing bracket, and each ends where a comma or the bracket
    -- stands.
    have hItems : List.Forall₂ (fun p row => BeginsApart (.mark .rightParen) row ∧
        Takes parameter row (· = .mark .colon) fun p' => p'.bare = p.bare)
        d.parameters parameters :=
      hParameters.imp fun p row hp =>
        ⟨by cases hp <;> exact ⟨by simp, by simp⟩, takes_parameter hp⟩
    have hClosed := takes_closed hList hItems (by decide) (by decide) (by decide)
    refine hClosed.next fun ps hps => ?_
    have hStatements : Takes body (.mark .leftBrace :: us) Never
        (List.Forall₂ (fun s s' => s'.bare = s.bare) d.body) := by
      unfold body
      refine (takes_expectMark .leftBrace).next fun _ _ => Takes.remaining fun n hn => ?_
      exact takes_statementsWithin hLines hBody 0 (by omega)
    rw [← List.append_nil us, ← List.cons_append]
    refine hStatements.next fun ss hss => ?_
    refine Takes.spanFrom start fun span => takes_pure ?_
    simp [Definition.bare, Identifier.bare, hName, map_eq_of_forall₂ hps, map_eq_of_forall₂ hss]

/-- A definition begins with its keyword. -/
theorem begins_definition {d : Definition} (h : d.Written spare ts) :
    ∃ us, ts = .keyword .function :: us := by
  cases h
  exact ⟨_, rfl⟩

/-- Definitions on lines of their own are taken up to the end of the source. -/
theorem takes_definitionsWithin {ds : List Definition} (hLines : Lined [] rows ts)
    (h : List.Forall₂ (Definition.Written spare) ds rows) (j : Nat) {fuel : Nat}
    (hFuel : j + ts.length ≤ fuel) :
    Takes (definitionsWithin fuel) (List.replicate j .newline ++ ts) (fun _ => True)
      (List.Forall₂ (fun d d' => d'.bare = d.bare) ds) := by
  -- The line breaks in front of a definition belong to the reader of the one before, hence the
  -- number `j`.
  induction hLines generalizing ds j fuel with
  | close k =>
    obtain rfl := List.forall₂_nil_right_iff.mp h
    rw [replicate_append_replicate]
    cases fuel with
    | zero =>
      rw [List.length_append, List.length_replicate] at hFuel
      obtain rfl : j = 0 := by omega
      obtain rfl : k = 0 := by omega
      exact takes_pure .nil
    | succ fuel =>
      unfold definitionsWithin
      refine (takes_skipLines (j + k)).bind (fun _ _ => ?_) (stops_nil fun _ _ => trivial)
      refine Takes.peek_end fun t ht => ?_
      have hEnd : t.isNone = true := by
        rw [Option.isNone_iff_eq_none, Option.eq_none_iff_forall_not_mem]
        exact fun u hu => ht u hu trivial
      rw [if_pos hEnd]
      exact takes_pure .nil
  | last k row =>
    obtain ⟨d, ds, hDefinition, hNil, rfl⟩ := List.forall₂_cons_right_iff.mp h
    obtain rfl := List.forall₂_nil_right_iff.mp hNil
    obtain ⟨us, rfl⟩ := begins_definition hDefinition
    rw [List.length_append, List.append_nil, List.length_cons] at hFuel
    obtain ⟨fuel, rfl⟩ := Nat.exists_eq_add_one.mpr (show 0 < fuel by omega)
    rw [replicate_append_replicate]
    unfold definitionsWithin
    refine (takes_skipLines (j + k)).bind (fun _ _ => ?_) (stops_cons (by simp))
    refine Takes.peek ?_
    rw [if_neg (by simp)]
    refine (takes_definition hDefinition).bind (fun d' hSame => ?_) stops_never
    refine Takes.peek_end fun t ht => ?_
    have hEnd : t = none := by
      rw [Option.eq_none_iff_forall_not_mem]
      exact fun u hu => ht u hu trivial
    rw [hEnd]
    exact takes_pure (.cons hSame .nil)
  | @more k row rows ts hLines ih =>
    obtain ⟨d, ds, hDefinition, hDefinitions, rfl⟩ := List.forall₂_cons_right_iff.mp h
    obtain ⟨us, rfl⟩ := begins_definition hDefinition
    rw [List.length_append, List.length_append, List.length_cons, List.length_cons] at hFuel
    obtain ⟨fuel, rfl⟩ := Nat.exists_eq_add_one.mpr (show 0 < fuel by omega)
    rw [replicate_append_replicate]
    unfold definitionsWithin
    refine (takes_skipLines (j + k)).bind (fun _ _ => ?_) (stops_cons (by simp))
    refine Takes.peek ?_
    rw [if_neg (by simp)]
    refine (takes_definition hDefinition).bind (fun d' hSame => ?_) stops_never
    refine Takes.peek ?_
    exact (ih hDefinitions 1 (show 1 + ts.length ≤ fuel by omega)).map fun ds hds =>
      List.Forall₂.cons hSame hds

theorem takes_file {f : SourceFile} (h : f.Written spare ts) :
    Takes file ts (fun _ => True) fun f' => f'.bare = f.bare := by
  cases h with
  | lines h hLines =>
    unfold file
    refine Takes.place fun start => Takes.remaining fun n hn => ?_
    have hDefinitions := takes_definitionsWithin hLines h 0 (show 0 + ts.length ≤ n by omega)
    rw [← List.append_nil ts]
    refine hDefinitions.bind (fun ds hds => ?_) (stops_nil fun _ => id)
    refine Takes.spanFrom start fun span => takes_pure ?_
    simp [SourceFile.bare, map_eq_of_forall₂ hds]

end Reading

/-! ## Sources -/

theorem parseTokens_written {spare : Prop} {f : SourceFile} {lexemes : List Lexeme}
    (h : f.Written spare (lexemes.map (·.token))) (length : Nat) :
    ∃ g, parseTokens length lexemes = .ok g ∧ g.bare = f.bare := by
  obtain ⟨g, reached, hRun, hSame⟩ := Reading.takes_file h lexemes [] length rfl
    fun t ht => absurd ht (by simp)
  rw [List.append_nil] at hRun
  refine ⟨g, ?_, hSame⟩
  unfold parseTokens
  rw [hRun]

/-- **Parsing undoes printing.** A script that can be written has a text, with brackets only where
they are needed; and from every text that it can be written as, in any layout, and with or without
spare brackets, it is read back without faults, places apart. -/
theorem parse_written {f : SourceFile} (h : f.Proper) :
    (∃ ts, ∃ source : String, f.Written False ts ∧ Spelled source.toList ts) ∧
      ∀ spare ts (source : String), f.Written spare ts → Spelled source.toList ts →
        ∃ g, parse source = ⟨some g, []⟩ ∧ g.bare = f.bare := by
  constructor
  · obtain ⟨ts, hWritten, hSpellable⟩ := h.exists_written False
    obtain ⟨cs, hSpelled, -⟩ := exists_spelled hSpellable
    exact ⟨ts, String.ofList cs, hWritten, by rwa [String.toList_ofList]⟩
  · intro spare ts source hWritten hSpelled
    obtain ⟨hTokens, hErrors⟩ := lex_spelled hSpelled
    obtain ⟨g, hParsed, hSame⟩ := parseTokens_written
      (by rwa [hTokens] : f.Written spare ((lex source).tokens.map (·.token))) source.utf8ByteSize
    refine ⟨g, ?_, hSame⟩
    unfold parse
    simp only [hParsed, hErrors, List.map_nil]

/-- The script `fn f(x: [3], y) { return (x - (y - 1)) ^ -x as d(x, y) }`. -/
def namedPower : SourceFile :=
  let x : Identifier := ⟨"x", ⟨0, 0⟩⟩
  let y : Identifier := ⟨"y", ⟨0, 0⟩⟩
  let inner : Term := .binary ⟨0, 0⟩ (.arith .sub) (.var y) (.number ⟨0, 0⟩ (Float.ofNat 1))
  let base : Term := .binary ⟨0, 0⟩ (.arith .sub) (.var x) inner
  let power : Term := .binary ⟨0, 0⟩ (.arith .pow) base (.neg ⟨0, 0⟩ (.var x))
  let body := [.result ⟨0, 0⟩ [.named ⟨0, 0⟩ power ⟨"d", ⟨0, 0⟩⟩ (some [x, y])]]
  ⟨[⟨⟨"f", ⟨0, 0⟩⟩, [⟨x, [3], ⟨0, 0⟩⟩, ⟨y, [], ⟨0, 0⟩⟩], body, ⟨0, 0⟩⟩], ⟨0, 0⟩⟩

/-- The script with brackets on both sides of an operator has a text that it is read from. -/
theorem parse_written_namedPower : namedPower.Proper ∧
    ∃ source g, parse source = ⟨some g, []⟩ ∧ g.bare = namedPower.bare := by
  have hName : ∀ name ∈ ["f", "x", "y", "d"], Identifier.Proper ⟨name, ⟨0, 0⟩⟩ := by
    simp only [List.forall_mem_cons]
    refine ⟨?_, ?_, ?_, ?_, by simp⟩ <;>
      exact ⟨⟨by decide, List.all_eq_true.mp (by decide)⟩, by decide⟩
  have hOne : Term.Proper (.number ⟨0, 0⟩ (Float.ofNat 1)) := by
    have hSpells : Spells (.int (digitsValue ['1'])) ['1'] :=
      .int ⟨by decide, List.all_eq_true.mp (by decide)⟩ (by decide)
    exact .number rfl hSpells
  have hX : Identifier.Proper ⟨"x", ⟨0, 0⟩⟩ := hName "x" (by simp)
  have hY : Identifier.Proper ⟨"y", ⟨0, 0⟩⟩ := hName "y" (by simp)
  -- The tree is written without needless brackets, which is what the grammar asks for.
  have hProper : namedPower.Proper := by
    intro d hd
    obtain rfl := List.mem_singleton.mp hd
    refine ⟨hName "f" (by simp), ?_, ?_⟩
    · simp only [List.forall_mem_cons]
      exact ⟨⟨hX, by decide⟩, ⟨hY, by simp⟩, by simp⟩
    · intro s hs
      obtain rfl := List.mem_singleton.mp hs
      refine .result (by simp) fun e he => ?_
      obtain rfl := List.mem_singleton.mp he
      exact .named (.binary (.binary (.var hX) (.binary (.var hY) hOne)) (.neg (.var hX)))
        (hName "d" (by simp)) (by simp [hX, hY])
  obtain ⟨⟨ts, source, hWritten, hSpelled⟩, hRead⟩ := parse_written hProper
  exact ⟨hProper, source, hRead False ts source hWritten hSpelled⟩

end ArrayEquations.Script
