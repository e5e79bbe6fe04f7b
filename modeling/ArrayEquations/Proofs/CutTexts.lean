import Mathlib.Data.List.Forall2
import ArrayEquations.Proofs.SpelledTokens

/-!
# ArrayEquations — cut texts

Every text is cut, from left to right, into blanks, comments, spellings of tokens and unknown
pieces. Each piece but an unknown character is as long as can be, and no character is left out. So
the places of the tokens and of the unknown pieces follow each other, and what stands between them
is blank.

## Main definitions

* `Piece.Covers` — the piece that a text begins with.
* `Cuts` — the pieces of a text, with their places.
* `StandsAt` — what stands at a place of a source.
* `Lexed.Fills` — the places of pieces, and what is between them.

## Main results

* `cuts_lexFrom`, `Cuts.lexFrom_eq` — a text is read as the pieces that it is cut into.
* `lex_loses_nothing` — the pieces fill the text, and the spellings of the tokens read alike.
-/

namespace ArrayEquations.Script

/-! ## Sizes -/

/-- The number of bytes of a text. -/
def bytes (cs : List Char) : Nat := (String.ofList cs).utf8ByteSize

theorem bytes_append (cs ds : List Char) : bytes (cs ++ ds) = bytes cs + bytes ds := by
  rw [bytes, String.ofList_append, String.utf8ByteSize_append, bytes, bytes]

theorem bytes_pos {cs : List Char} (h : cs ≠ []) : 0 < bytes cs := by
  rw [bytes, Nat.pos_iff_ne_zero, Ne, String.utf8ByteSize_eq_zero_iff]
  intro hEmpty
  exact h (by simpa using congrArg String.toList hEmpty)

/-- Parts of one text with as many bytes before them begin at one character. -/
theorem eq_of_bytes_eq {before before' cs cs' : List Char}
    (hText : before ++ cs = before' ++ cs') (hBytes : bytes before = bytes before') :
    before = before' ∧ cs = cs' := by
  have hNil : ∀ as ds : List Char, bytes (as ++ ds) = bytes as → ds = [] := by
    intro as ds h
    by_contra hNonempty
    have hPos := bytes_pos hNonempty
    rw [bytes_append] at h
    omega
  rcases List.append_eq_append_iff.mp hText with ⟨ds, rfl, rfl⟩ | ⟨ds, rfl, rfl⟩
  · obtain rfl := hNil _ _ hBytes.symm
    simp
  · obtain rfl := hNil _ _ hBytes
    simp

/-! ## Pieces -/

variable {c : Char} {more rest cs : List Char} {start : Nat} {t : Token} {piece : Piece}
  {lexed : Lexed}

/-- What is unknown: a whole number that is too large, and a character that begins no match. -/
inductive IsUnknown : List Char → List Char → Prop
  | number {cs rest : List Char} (h : AreDigits cs) (hBound : wordBound ≤ digitsValue cs)
      (hEnds : EndsMatch cs rest) : IsUnknown cs rest
  | character {c : Char} {rest : List Char}
      (h : ∀ more after, rest = more ++ after → ¬ Matches (c :: more)) : IsUnknown [c] rest

/-- The text is one piece, and the rest follows it. -/
def Piece.Covers : Piece → List Char → List Char → Prop
  | .blank, cs, rest => IsBlank cs ∧ EndsMatch cs rest
  | .token t, cs, rest => Spells t cs ∧ EndsMatch cs rest
  | .unknown, cs, rest => IsUnknown cs rest

theorem Piece.Covers.ne_nil (h : piece.Covers cs rest) : cs ≠ [] := by
  cases piece with
  | blank => exact h.1.ne_nil
  | token t => exact h.1.ne_nil
  | unknown =>
    cases h with
    | number h => exact h.1
    | character => simp

/-- A numeral without a fraction and an exponent is its digits. -/
theorem SpellsNumeral.areDigits {n : Numeral} (h : SpellsNumeral n cs) (hFraction : n.fraction = [])
    (hExponent : n.exponent = none) : AreDigits cs ∧ cs = n.whole := by
  cases h with
  | @parts whole fraction fs es exponent hWhole hFs hEs =>
    obtain rfl : fraction = [] := hFraction
    obtain rfl : exponent = none := hExponent
    obtain rfl : fs = [] := by
      cases hFs with
      | absent => rfl
      | digits h => exact absurd rfl h.1
    cases hEs
    rw [List.append_nil, List.append_nil]
    exact ⟨hWhole, rfl⟩

theorem Keyword.text_of_ofText? {s : String} {k : Keyword} (h : Keyword.ofText? s = some k) :
    k.text = s := by
  simpa using List.find?_some h

/-- A word is a keyword, or else an identifier. -/
theorem IsWord.spells (h : IsWord cs) : Spells (wordToken (String.ofList cs)) cs := by
  unfold wordToken
  split
  · rename_i k hKeyword
    have hText := congrArg String.toList (Keyword.text_of_ofText? hKeyword)
    rw [String.toList_ofList] at hText
    exact hText ▸ .keyword k
  · rename_i hNone
    rw [← String.toList_ofList (l := cs)] at h
    have hSpells := Spells.identifier h hNone
    rwa [String.toList_ofList] at hSpells

/-- A match that is as long as can be is a piece. -/
theorem Matches.exists_piece (h : Matches cs) (hEnds : EndsMatch cs rest) :
    ∃ piece : Piece, piece.Covers cs rest := by
  cases h with
  | blank h => exact ⟨.blank, h, hEnds⟩
  | word h => exact ⟨.token _, h.spells, hEnds⟩
  | @numeral n _ h =>
    by_cases hParts : n.fraction ≠ [] ∨ n.exponent ≠ none
    · exact ⟨.token _, .decimal h hParts, hEnds⟩
    · rw [not_or, not_not, not_not] at hParts
      obtain ⟨hDigits, -⟩ := h.areDigits hParts.1 hParts.2
      rcases Nat.lt_or_ge (digitsValue cs) wordBound with hBound | hBound
      · exact ⟨.token _, .int hDigits hBound, hEnds⟩
      · exact ⟨.unknown, .number hDigits hBound hEnds⟩
  | mark m => exact ⟨.token _, .mark m, hEnds⟩
  | newlines k => exact ⟨.token _, .newline k, hEnds⟩

/-- Among the matches at the start of a text, one is as long as can be. -/
theorem exists_longest (h : Matches (c :: more)) (rest : List Char) :
    ∃ more' after, more ++ rest = more' ++ after ∧ Matches (c :: more') ∧
      EndsMatch (c :: more') after := by
  -- A longer match leaves less behind it.
  induction hLength : rest.length using Nat.strongRecOn generalizing more rest with
  | _ n ih =>
    by_cases hEnds : EndsMatch (c :: more) rest
    · exact ⟨more, rest, rfl, h, hEnds⟩
    · unfold EndsMatch at hEnds
      push Not at hEnds
      obtain ⟨longer, after, rfl, hMatches, hNonempty⟩ := hEnds
      have hPos := List.length_pos_iff.mpr hNonempty
      rw [List.length_append] at hLength
      rw [List.cons_append] at hMatches
      obtain ⟨more', after', hText, hLongest⟩ := ih after.length (by omega) hMatches after rfl
      exact ⟨more', after', by rw [← hText, List.append_assoc], hLongest⟩

/-- **Every text begins with a piece.** -/
theorem exists_piece (c : Char) (rest : List Char) : ∃ (piece : Piece) (more after : List Char),
    rest = more ++ after ∧ piece.Covers (c :: more) after := by
  by_cases h : ∃ more after, rest = more ++ after ∧ Matches (c :: more)
  · obtain ⟨more, after, rfl, hMatches⟩ := h
    obtain ⟨more', after', hText, hMatches', hEnds⟩ := exists_longest hMatches after
    obtain ⟨piece, hCovers⟩ := hMatches'.exists_piece hEnds
    exact ⟨piece, more', after', hText, hCovers⟩
  · push Not at h
    exact ⟨.unknown, [], rest, rfl, .character h⟩

/-! ## Reading pieces -/

/-- A character that begins no match is taken alone. -/
theorem pieceAt_unmatched (h : ∀ more after, rest = more ++ after → ¬ Matches (c :: more)) :
    pieceAt c rest = (.unknown, 0) := by
  have hAlone : ¬ Matches [c] := h [] rest rfl
  -- Each test of the lexer would leave a text that matches, if it only were this one character.
  have hBlank : ¬ isLineBlank c = true := fun hc =>
    hAlone (.blank (.run (by simp) (by simpa using hc)))
  have hComment : c ≠ '#' := by
    rintro rfl
    exact hAlone (.blank (.comment (by simp)))
  have hLine : c ≠ '\n' := by
    rintro rfl
    exact hAlone (.newlines 0)
  have hName : ¬ isNameStart c = true := fun hc => hAlone (.word ⟨hc, by simp⟩)
  have hDigit : ¬ c.isDigit = true := by
    intro hc
    have hDigits : AreDigits [c] := ⟨by simp, by simpa using hc⟩
    exact hAlone (.numeral (.parts hDigits .absent .absent))
  -- A mark may take one character more, so both lengths are excluded.
  have hMark : ∀ more after, rest = more ++ after →
      Mark.ofText? (String.ofList (c :: more)) = none := by
    intro more after hRest
    rw [Option.eq_none_iff_forall_not_mem]
    intro m hm
    have hMatches := Matches.mark m
    rw [Mark.text_of_ofText? hm, String.toList_ofList] at hMatches
    exact h more after hRest hMatches
  have hSingle : Mark.ofText? c.toString = none := hMark [] rest rfl
  rw [pieceAt, if_neg hBlank, if_neg hComment, if_neg hLine, if_neg hName, if_neg hDigit, scanMark,
    hMark (rest.take 1) (rest.drop 1) (List.take_append_drop 1 rest).symm, hSingle]

/-- **A piece is taken as a whole.** -/
theorem Piece.Covers.pieceAt (h : piece.Covers (c :: more) rest) :
    pieceAt c (more ++ rest) = (piece, more.length) := by
  cases piece with
  | blank => exact h.1.pieceAt h.2
  | token t => exact h.1.pieceAt h.2
  | unknown =>
    generalize hcs : c :: more = cs at h
    cases h with
    | number h hBound hEnds =>
      subst hcs
      have hNumeral := SpellsNumeral.parts h .absent .absent
      rw [List.append_nil, List.append_nil] at hNumeral
      rw [pieceAt_numeral hNumeral hEnds]
      simp [Nat.not_lt.mpr hBound]
    | character h =>
      obtain ⟨rfl, rfl⟩ := List.cons.inj hcs
      exact pieceAt_unmatched h

theorem Piece.Covers.lexFrom_append (h : piece.Covers cs rest) (start : Nat) :
    lexFrom start (cs ++ rest) = (lexFrom (start + bytes cs) rest).cons piece (String.ofList cs)
      ⟨start, start + bytes cs⟩ := by
  obtain ⟨c, more, rfl⟩ := List.exists_cons_of_ne_nil h.ne_nil
  exact lexFrom_piece h.pieceAt start

/-- A text that starts at a place, cut into pieces. -/
inductive Cuts : Nat → List Char → Lexed → Prop
  | nil (start : Nat) : Cuts start [] ⟨[], []⟩
  | cons {start : Nat} {piece : Piece} {cs rest : List Char} {later : Lexed}
      (h : piece.Covers cs rest) (hRest : Cuts (start + bytes cs) rest later) :
      Cuts start (cs ++ rest) (later.cons piece (String.ofList cs) ⟨start, start + bytes cs⟩)

/-- **A text is read as it is cut.** -/
theorem Cuts.lexFrom_eq (h : Cuts start cs lexed) : lexFrom start cs = lexed := by
  induction h with
  | nil start => rw [lexFrom]
  | cons h _ ih => rw [h.lexFrom_append, ih]

theorem cuts_lexFrom (start : Nat) (cs : List Char) : Cuts start cs (lexFrom start cs) := by
  induction hLength : cs.length using Nat.strongRecOn generalizing start cs with
  | _ n ih =>
    cases cs with
    | nil =>
      rw [lexFrom]
      exact .nil start
    | cons c rest =>
      obtain ⟨piece, more, after, rfl, hCovers⟩ := exists_piece c rest
      rw [← List.cons_append, hCovers.lexFrom_append]
      refine .cons hCovers (ih after.length ?_ _ _ rfl)
      rw [← hLength, List.length_cons, List.length_append]
      omega

/-! ## Places -/

variable {source : String} {before after : List Char} {span : Span} {places : List Span}

/-- A part of a source stands at a place, with its bytes counted. -/
structure StandsAt (source : String) (span : Span) (before cs after : List Char) : Prop where
  text : source.toList = before ++ (cs ++ after)
  start : bytes before = span.start
  stop : bytes (before ++ cs) = span.stop

/-- Blanks, and a comment that goes on up to a line end or the end of the text. -/
def IsGap (cs rest : List Char) : Prop :=
  ∃ blanks comment, cs = blanks ++ comment ∧ (∀ c ∈ blanks, isLineBlank c) ∧
    (comment = [] ∨ ∃ more, comment = '#' :: more ∧ (∀ c ∈ more, c ≠ '\n') ∧
      ∀ c ∈ rest.head?, c = '\n')

/-- What is left out by places that follow each other, from a start to a stop. -/
def gaps (start : Nat) : List Span → Nat → List Span
  | [], stop => [⟨start, stop⟩]
  | p :: ps, stop => ⟨start, p.start⟩ :: gaps p.stop ps stop

/-- The pieces have places that follow each other, from a start on, and what they leave out of the
source is blank. -/
structure Lexed.Fills (source : String) (start : Nat) (lexed : Lexed) (places : List Span) :
    Prop where
  tokens : (lexed.tokens.map (·.span)).Sublist places
  errors : (lexed.errors.map (·.span)).Sublist places
  perm : places.Perm (lexed.tokens.map (·.span) ++ lexed.errors.map (·.span))
  nonempty : ∀ p ∈ places, p.start < p.stop
  ordered : places.Pairwise fun p q => p.stop ≤ q.start
  after : ∀ p ∈ places, start ≤ p.start
  gap : ∀ g ∈ gaps start places source.utf8ByteSize, ∃ before cs after,
    StandsAt source g before cs after ∧ IsGap cs after

theorem mem_gaps {g : Span} {stop : Nat} (places : List Span) (start start' : Nat)
    (h : g ∈ gaps start places stop) :
    (∃ first, g = ⟨start, first⟩ ∧ ⟨start', first⟩ ∈ gaps start' places stop) ∨
      g ∈ gaps start' places stop := by
  cases places with
  | nil =>
    obtain rfl := List.mem_singleton.mp h
    exact Or.inl ⟨stop, rfl, List.mem_singleton_self _⟩
  | cons p ps =>
    rcases List.mem_cons.mp h with rfl | h
    · exact Or.inl ⟨p.start, rfl, List.mem_cons_self⟩
    · exact Or.inr (List.mem_cons_of_mem _ h)

/-- Blanks make a gap longer at its front, and a comment does as it reaches a line end. -/
theorem IsBlank.gap (h : IsBlank cs) (hEnds : EndsMatch cs (more ++ rest))
    (hGap : IsGap more rest) : IsGap (cs ++ more) rest := by
  obtain ⟨blanks, comment, rfl, hBlanks, hComment⟩ := hGap
  cases h with
  | run _ hRun =>
    refine ⟨cs ++ blanks, comment, by rw [List.append_assoc], ?_, hComment⟩
    exact List.forall_mem_append.mpr ⟨hRun, hBlanks⟩
  | @comment cs hNoLine =>
    have hNext : ∀ d ∈ ((blanks ++ comment) ++ rest).head?, decide (d ≠ '\n') = false :=
      hEnds.run_ends (p := fun d => decide (d ≠ '\n')) fun d hd =>
        .blank (.comment (List.forall_mem_append.mpr ⟨hNoLine, by simpa using hd⟩))
    -- A gap begins with no line end, so behind a comment it is empty.
    obtain rfl : blanks = [] := by
      cases blanks with
      | nil => rfl
      | cons d blanks =>
        have hd : d = '\n' := by simpa using hNext d rfl
        exact absurd (hBlanks d List.mem_cons_self) (by rw [hd]; decide)
    obtain rfl : comment = [] := by
      rcases hComment with rfl | ⟨more, rfl, -⟩
      · rfl
      · exact absurd (hNext '#' rfl) (by decide)
    refine ⟨[], '#' :: cs, by simp, by simp, Or.inr ⟨cs, rfl, hNoLine, ?_⟩⟩
    intro d hd
    simpa using hNext d hd

/-- The pieces behind some blanks fill the source from before those. -/
theorem Lexed.Fills.blank (h : lexed.Fills source (start + bytes cs) places)
    (hText : source.toList = before ++ (cs ++ rest)) (hStart : bytes before = start)
    (hBlank : IsBlank cs) (hEnds : EndsMatch cs rest) : lexed.Fills source start places where
  tokens := h.tokens
  errors := h.errors
  perm := h.perm
  nonempty := h.nonempty
  ordered := h.ordered
  after p hp := Nat.le_trans (Nat.le_add_right _ _) (h.after p hp)
  gap := by
    intro g hg
    -- Only the first gap can reach back to here; the blank is put in front of it.
    rcases mem_gaps places start (start + bytes cs) hg with ⟨first, rfl, hFirst⟩ | hLater
    · obtain ⟨before', more, after, hStands, hGap⟩ := h.gap _ hFirst
      have hSame : before ++ cs ++ rest = before' ++ (more ++ after) := by
        rw [List.append_assoc, ← hText, hStands.text]
      obtain ⟨rfl, rfl⟩ := eq_of_bytes_eq hSame (by rw [hStands.start, bytes_append, hStart])
      refine ⟨before, cs ++ more, after, ⟨?_, hStart, ?_⟩, hBlank.gap hEnds hGap⟩
      · rw [hText, List.append_assoc]
      · rw [← List.append_assoc]
        exact hStands.stop
    · exact h.gap g hLater

/-- A token or an unknown piece has a place before those of the pieces behind it. -/
theorem Lexed.Fills.cons (h : lexed.Fills source (start + bytes cs) places)
    (hText : source.toList = before ++ (cs ++ rest)) (hStart : bytes before = start)
    (hNonempty : cs ≠ []) (hPiece : piece ≠ .blank) :
    (lexed.cons piece (String.ofList cs) ⟨start, start + bytes cs⟩).Fills source start
      (⟨start, start + bytes cs⟩ :: places) := by
  have hPos := bytes_pos hNonempty
  have hPlaces : ∀ p ∈ (⟨start, start + bytes cs⟩ :: places : List Span),
      p.start < p.stop ∧ start ≤ p.start := by
    refine List.forall_mem_cons.mpr ⟨⟨?_, Nat.le_refl start⟩, ?_⟩
    · exact Nat.lt_add_of_pos_right hPos
    · exact fun p hp => ⟨h.nonempty p hp, Nat.le_trans (Nat.le_add_right _ _) (h.after p hp)⟩
  have hOrdered : (⟨start, start + bytes cs⟩ :: places : List Span).Pairwise
      fun p q => p.stop ≤ q.start :=
    List.pairwise_cons.mpr ⟨h.after, h.ordered⟩
  -- Nothing stands between the start and the piece, which is an empty gap.
  have hGaps : ∀ g ∈ gaps start (⟨start, start + bytes cs⟩ :: places) source.utf8ByteSize,
      ∃ before cs after, StandsAt source g before cs after ∧ IsGap cs after := by
    refine List.forall_mem_cons.mpr ⟨?_, h.gap⟩
    refine ⟨before, [], cs ++ rest, ⟨hText, hStart, by rw [List.append_nil, hStart]⟩, ?_⟩
    exact ⟨[], [], rfl, by simp, Or.inl rfl⟩
  cases piece with
  | blank => exact absurd rfl hPiece
  | token t =>
    exact ⟨h.tokens.cons_cons _, h.errors.cons _, h.perm.cons _, fun p hp => (hPlaces p hp).1,
      hOrdered, fun p hp => (hPlaces p hp).2, hGaps⟩
  | unknown =>
    exact ⟨h.tokens.cons _, h.errors.cons_cons _, (h.perm.cons _).trans List.perm_middle.symm,
      fun p hp => (hPlaces p hp).1, hOrdered, fun p hp => (hPlaces p hp).2, hGaps⟩

/-- **The pieces of a text fill it.** -/
theorem Cuts.exists_fills (h : Cuts start cs lexed) (hText : source.toList = before ++ cs)
    (hStart : bytes before = start) : ∃ places, lexed.Fills source start places := by
  induction h generalizing before with
  | nil start =>
    refine ⟨[], .slnil, .slnil, .nil, by simp, .nil, by simp, ?_⟩
    intro g hg
    obtain rfl := List.mem_singleton.mp hg
    have hAll : bytes (before ++ []) = source.utf8ByteSize := by
      rw [← hText, bytes, String.ofList_toList]
    exact ⟨before, [], [], ⟨hText, hStart, hAll⟩, [], [], rfl, by simp, Or.inl rfl⟩
  | @cons start piece cs rest later h _ ih =>
    rw [← List.append_assoc] at hText
    obtain ⟨places, hFills⟩ := ih hText (by rw [bytes_append, hStart])
    rw [List.append_assoc] at hText
    cases piece with
    | blank => exact ⟨places, hFills.blank hText hStart h.1 h.2⟩
    | token t => exact ⟨_, hFills.cons hText hStart h.ne_nil (by simp)⟩
    | unknown => exact ⟨_, hFills.cons hText hStart h.ne_nil (by simp)⟩

/-- What stands at the place of a token spells it, and no match goes on behind it. -/
def Lexeme.IsSpelled (source : String) (l : Lexeme) (text : String) : Prop :=
  ∃ before after, StandsAt source l.span before text.toList after ∧
    Spells l.token text.toList ∧ EndsMatch text.toList after

/-- What stands at the place of a lexical error is unknown. -/
def LexError.IsShown (source : String) (e : LexError) : Prop :=
  ∃ before after, StandsAt source e.span before e.text.toList after ∧ IsUnknown e.text.toList after

theorem Cuts.exists_texts (h : Cuts start cs lexed) (hText : source.toList = before ++ cs)
    (hStart : bytes before = start) :
    (∃ texts, List.Forall₂ (Lexeme.IsSpelled source) lexed.tokens texts) ∧
      ∀ e ∈ lexed.errors, LexError.IsShown source e := by
  induction h generalizing before with
  | nil start => exact ⟨⟨[], .nil⟩, by simp⟩
  | @cons start piece cs rest later h _ ih =>
    rw [← List.append_assoc] at hText
    obtain ⟨⟨texts, hTexts⟩, hErrors⟩ := ih hText (by rw [bytes_append, hStart])
    rw [List.append_assoc] at hText
    -- The text of the piece, at the place that the lexer gives it.
    have hStands :
        StandsAt source ⟨start, start + bytes cs⟩ before (String.ofList cs).toList rest := by
      rw [String.toList_ofList]
      exact ⟨hText, hStart, by rw [bytes_append, hStart]⟩
    cases piece with
    | blank => exact ⟨⟨texts, hTexts⟩, hErrors⟩
    | token t =>
      refine ⟨⟨String.ofList cs :: texts, .cons ⟨before, rest, hStands, ?_⟩ hTexts⟩, hErrors⟩
      rw [String.toList_ofList]
      exact h
    | unknown =>
      refine ⟨⟨texts, hTexts⟩, List.forall_mem_cons.mpr ⟨⟨before, rest, hStands, ?_⟩, hErrors⟩⟩
      rw [String.toList_ofList]
      exact h

/-! ## Spellings alone and joined -/

theorem endsMatch_nil (cs : List Char) : EndsMatch cs [] :=
  fun _ _ hNil _ => (List.append_eq_nil_iff.mp hNil.symm).1

/-- The spelling of a token alone is read as the token. -/
theorem Spells.lex_eq {text : String} (h : Spells t text.toList) :
    lex text = ⟨[⟨t, ⟨0, text.utf8ByteSize⟩⟩], []⟩ := by
  have hCovers : Piece.Covers (.token t) text.toList [] := ⟨h, endsMatch_nil _⟩
  have hCuts := Cuts.cons hCovers (.nil (0 + bytes text.toList))
  rw [List.append_nil, bytes, String.ofList_toList, Nat.zero_add] at hCuts
  exact hCuts.lexFrom_eq

/-- Spellings joined by blanks spell the row of their tokens. -/
theorem spelled_intercalate {ts : List Token} {texts : List (List Char)}
    (h : List.Forall₂ Spells ts texts) : Spelled ([' '].intercalate texts) ts := by
  induction h with
  | nil => exact .nil
  | @cons t cs ts texts hOne hRest ih =>
    cases hRest with
    | nil =>
      rw [List.intercalate_singleton, ← List.append_nil cs]
      exact .token hOne (endsMatch_nil cs) .nil
    | @cons t' cs' ts texts hNext hRest =>
      -- The next text begins with no blank, so the space ends where it begins.
      have hFirst : ∀ c, ([' '].intercalate (cs' :: texts)).head? = some c →
          ¬ isLineBlank c = true := by
        obtain ⟨d, ds, rfl⟩ := List.exists_cons_of_ne_nil hNext.ne_nil
        intro c hc
        obtain rfl : d = c := by cases texts <;> simpa [List.intercalate] using hc
        exact hNext.begins.1
      have hBlank : Spelled ([' '] ++ [' '].intercalate (cs' :: texts)) (t' :: ts) :=
        .blank (.run (by simp) (by simp [isLineBlank])) (blank_ends hFirst) ih
      rw [List.intercalate_cons_cons, List.append_assoc]
      exact .token hOne (hOne.ends_before_blank _) hBlank

/-- **Reading a text loses nothing.** The tokens and the unknown pieces have places that are not
empty and follow each other, at characters, and what stands between them, before and behind them
is blank. At the place of a token there is a spelling of it that is as long as can be, and this
alone is read as the token; at the place of an error there is something unknown. Joined by single
blanks, the spellings are read as the same tokens. -/
theorem lex_loses_nothing (source : String) : ∃ (places : List Span) (texts : List String),
    (lex source).Fills source 0 places ∧
    List.Forall₂ (fun l text => l.IsSpelled source text ∧
      lex text = ⟨[⟨l.token, ⟨0, text.utf8ByteSize⟩⟩], []⟩) (lex source).tokens texts ∧
    (∀ e ∈ (lex source).errors, e.IsShown source) ∧
    (lex (" ".intercalate texts)).tokens.map (·.token) = (lex source).tokens.map (·.token) ∧
    (lex (" ".intercalate texts)).errors = [] := by
  have hCuts := cuts_lexFrom 0 source.toList
  have hText : source.toList = [] ++ source.toList := rfl
  obtain ⟨places, hFills⟩ := hCuts.exists_fills hText rfl
  obtain ⟨⟨texts, hTexts⟩, hErrors⟩ := hCuts.exists_texts hText rfl
  -- Each text spells its token, and joined by spaces they spell the row of tokens.
  have hSpells : List.Forall₂ Spells ((lex source).tokens.map (·.token))
      (texts.map String.toList) := by
    rw [List.forall₂_map_left_iff, List.forall₂_map_right_iff]
    exact hTexts.imp fun l text ⟨_, _, _, hSpells, _⟩ => hSpells
  have hSpelled : Spelled (" ".intercalate texts).toList ((lex source).tokens.map (·.token)) := by
    rw [String.toList_intercalate]
    exact spelled_intercalate hSpells
  have hJoined := lex_spelled hSpelled
  refine ⟨places, texts, hFills, ?_, hErrors, hJoined⟩
  exact hTexts.imp fun l text hText => ⟨hText, Spells.lex_eq hText.choose_spec.choose_spec.2.1⟩

end ArrayEquations.Script
