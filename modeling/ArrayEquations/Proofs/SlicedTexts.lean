import ArrayEquations.Proofs.CutTexts
import ArrayEquations.Proofs.ShiftedPlaces

/-!
# ArrayEquations — texts taken out of a source

The text from the start of one token to the end of another one is read as the tokens from the first
to the last, at places that count from its start. For a match that is as long as can be is so too
where the text behind it ends earlier.

## Main definitions

* `CutInto` — a text cut into blanks and the spellings of tokens.

## Main results

* `exists_slice` — the text of a row of tokens is read as the row.
-/

namespace ArrayEquations.Script

variable {start s : Nat} {cs ds rest : List Char} {row before later : List Lexeme} {t : Lexeme}

/-- A text that starts at a place, cut into blanks and the spellings of tokens. -/
inductive CutInto : Nat → List Char → List Lexeme → Prop
  | nil (start : Nat) : CutInto start [] []
  | blank {start : Nat} {cs rest : List Char} {row : List Lexeme} (h : IsBlank cs)
      (hEnds : EndsMatch cs rest) (hRest : CutInto (start + bytes cs) rest row) :
      CutInto start (cs ++ rest) row
  | token {start : Nat} {cs rest : List Char} {t : Token} {row : List Lexeme} (h : Spells t cs)
      (hEnds : EndsMatch cs rest) (hRest : CutInto (start + bytes cs) rest row) :
      CutInto start (cs ++ rest) (⟨t, ⟨start, start + bytes cs⟩⟩ :: row)

/-- A text without unknown pieces is cut into its tokens. -/
theorem Cuts.cutInto {lexed : Lexed} (h : Cuts start cs lexed) (hErrors : lexed.errors = []) :
    CutInto start cs lexed.tokens := by
  induction h with
  | nil start => exact .nil start
  | @cons start piece cs rest later h _ ih =>
    cases piece with
    | blank => exact .blank h.1 h.2 (ih hErrors)
    | token t => exact .token h.1 h.2 (ih hErrors)
    | unknown => exact absurd hErrors (List.cons_ne_nil _ _)

/-- A text is read as the tokens that it is cut into. -/
theorem CutInto.lexFrom_eq (h : CutInto start cs row) : lexFrom start cs = ⟨row, []⟩ := by
  induction h with
  | nil start => rw [lexFrom]
  | @blank start cs rest row h hEnds _ ih =>
    have hCovers : Piece.Covers .blank cs rest := ⟨h, hEnds⟩
    rw [hCovers.lexFrom_append, ih]
    rfl
  | @token start cs rest t row h hEnds _ ih =>
    have hCovers : Piece.Covers (.token t) cs rest := ⟨h, hEnds⟩
    rw [hCovers.lexFrom_append, ih]
    rfl

/-! ## Parts of a text -/

theorem EndsMatch.of_append (h : EndsMatch cs (ds ++ rest)) : EndsMatch cs ds := by
  intro more after hText hMatches
  exact h more (after ++ rest) (by rw [hText, List.append_assoc]) hMatches

/-- What is behind the tokens before one starts where that one does. -/
theorem CutInto.behind (h : CutInto start cs (before ++ t :: later)) :
    ∃ front back, cs = front ++ back ∧ t.span.start = start + bytes front ∧
      CutInto (start + bytes front) back (t :: later) := by
  generalize hRow : before ++ t :: later = row at h
  induction h generalizing before with
  | nil => exact absurd hRow (by simp)
  | @blank start cs rest row _ _ _ ih =>
    obtain ⟨front, back, rfl, hStart, hCut⟩ := ih hRow
    refine ⟨cs ++ front, back, (List.append_assoc _ _ _).symm, ?_, ?_⟩
    · rw [hStart, bytes_append, Nat.add_assoc]
    · rwa [bytes_append, ← Nat.add_assoc]
  | @token start cs rest u row h hEnds hRest ih =>
    cases before with
    | nil =>
      obtain ⟨rfl, rfl⟩ := List.cons.inj hRow
      exact ⟨[], cs ++ rest, rfl, rfl, .token h hEnds hRest⟩
    | cons b before =>
      -- The token is one of those before.
      obtain ⟨front, back, rfl, hStart, hCut⟩ := ih (List.cons.inj hRow).2
      refine ⟨cs ++ front, back, (List.append_assoc _ _ _).symm, ?_, ?_⟩
      · rw [hStart, bytes_append, Nat.add_assoc]
      · rwa [bytes_append, ← Nat.add_assoc]

/-- What is before the end of a token is cut into the tokens up to it. -/
theorem CutInto.upTo (h : CutInto start cs (row ++ later)) (hSome : row ≠ []) (reached : Nat) :
    ∃ front back, cs = front ++ back ∧ endOf row reached = start + bytes front ∧
      CutInto start front row := by
  generalize hRow : row ++ later = all at h
  induction h generalizing row reached with
  | nil => exact absurd (List.append_eq_nil_iff.mp hRow).1 hSome
  | @blank start cs rest all h hEnds _ ih =>
    obtain ⟨front, back, rfl, hStop, hCut⟩ := ih hSome reached hRow
    refine ⟨cs ++ front, back, (List.append_assoc _ _ _).symm, ?_, .blank h hEnds.of_append hCut⟩
    rw [hStop, bytes_append, Nat.add_assoc]
  | @token start cs rest t all h hEnds hRest ih =>
    -- The text ends with the last token of the row, so that no blank behind it is taken along.
    obtain ⟨l, row, rfl⟩ := List.exists_cons_of_ne_nil hSome
    obtain ⟨rfl, hMore⟩ := List.cons.inj hRow
    cases row with
    | nil =>
      refine ⟨cs, rest, rfl, rfl, ?_⟩
      have hCut := CutInto.token h (endsMatch_nil cs) (.nil (start + bytes cs))
      rwa [List.append_nil] at hCut
    | cons l row =>
      obtain ⟨front, back, rfl, hStop, hCut⟩ := ih (List.cons_ne_nil l row) (start + bytes cs) hMore
      refine ⟨cs ++ front, back, (List.append_assoc _ _ _).symm, ?_, .token h hEnds.of_append hCut⟩
      rw [endOf_cons, hStop, bytes_append, Nat.add_assoc]

/-- A text that starts earlier is cut into tokens that are shifted. -/
theorem CutInto.exists_unshifted (h : CutInto (start + s) cs row) :
    ∃ row', CutInto start cs row' ∧ row = shiftRow s row' := by
  generalize hStart : start + s = place at h
  induction h generalizing start with
  | nil => exact ⟨[], .nil start, rfl⟩
  | @blank place cs rest row h hEnds _ ih =>
    have hNext : start + bytes cs + s = place + bytes cs := by omega
    obtain ⟨row', hCut, rfl⟩ := ih hNext
    exact ⟨row', .blank h hEnds hCut, rfl⟩
  | @token place cs rest t row h hEnds _ ih =>
    have hNext : start + bytes cs + s = place + bytes cs := by omega
    obtain ⟨row', hCut, rfl⟩ := ih hNext
    refine ⟨_, .token h hEnds hCut, ?_⟩
    have hToken :
        Lexeme.shift s ⟨t, ⟨start, start + bytes cs⟩⟩ = ⟨t, ⟨place, place + bytes cs⟩⟩ := by
      rw [Lexeme.shift, Span.shift, hNext, hStart]
    rw [← hToken]
    rfl

/-- **The text of a row of tokens is read as the row**, at places that count from its start. -/
theorem exists_slice {source : String} (hErrors : (lex source).errors = [])
    (hTokens : (lex source).tokens = before ++ (row ++ later)) (hSome : row ≠ []) :
    ∃ (front back : List Char) (text : String) (row' : List Lexeme),
      StandsAt source (spanOf row) front text.toList back ∧ lex text = ⟨row', []⟩ ∧
        row = shiftRow (spanOf row).start row' := by
  have hCut : CutInto 0 source.toList (before ++ (row ++ later)) :=
    hTokens ▸ (cuts_lexFrom 0 source.toList).cutInto hErrors
  obtain ⟨t, row, rfl⟩ := List.exists_cons_of_ne_nil hSome
  -- From the first token on, and of that up to the end of the last one.
  obtain ⟨front, behind, hText, hStart, hBehind⟩ := hCut.behind
  have hRow : CutInto (0 + bytes front) behind ((t :: row) ++ later) := hBehind
  obtain ⟨cs, back, rfl, hStop, hPart⟩ := hRow.upTo hSome 0
  obtain ⟨row', hAlone, hSame⟩ := hPart.exists_unshifted
  rw [Nat.zero_add] at hStart hStop
  refine ⟨front, back, String.ofList cs, row', ⟨?_, ?_, ?_⟩, ?_, ?_⟩
  · rw [hText, String.toList_ofList]
  · exact hStart.symm
  · rw [String.toList_ofList, bytes_append]
    exact hStop.symm
  · rw [lex, String.toList_ofList]
    exact hAlone.lexFrom_eq
  · rwa [spanOf, hStart]

end ArrayEquations.Script
