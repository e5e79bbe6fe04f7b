import ArrayEquations.Proofs.Numerals
import ArrayEquations.Script.Lexer

/-!
# ArrayEquations — spelled tokens

A text spells a row of tokens if it can be cut, from left to right, into blanks, comments and
spellings of the tokens, where every piece is as long as can be: no match of any kind is longer
at its place. Blanks and comments may stand anywhere between the tokens, or nowhere, if only the
tokens beside each other do not run together.

A text is read as the tokens that it spells.

## Main definitions

* `Spells` — the spellings of a token.
* `Matches`, `EndsMatch` — what a piece of text may be, and where it ends.
* `Spelled` — the texts that spell a row of tokens.

## Main results

* `lex_spelled` — reading a text gives the tokens that it spells, and nothing is unknown.
* `exists_spelled` — a row of tokens that have spellings has a text.
-/

namespace ArrayEquations.Script

/-! ## Spellings -/

/-- A letter or a low line, and letters, low lines and digits behind it. -/
def IsWord : List Char → Prop
  | [] => False
  | c :: more => isNameStart c ∧ ∀ d ∈ more, isNamePart d

/-- Digits, one at least. -/
def AreDigits (cs : List Char) : Prop := cs ≠ [] ∧ ∀ c ∈ cs, c.isDigit

/-- The digits of a fraction, if there are any, stand behind a point. -/
inductive SpellsFraction : List Char → List Char → Prop
  | absent : SpellsFraction [] []
  | digits {ds : List Char} (h : AreDigits ds) : SpellsFraction ds ('.' :: ds)

/-- The sign of an exponent, which a plus need not show. -/
inductive SpellsSign : Bool → List Char → Prop
  | absent : SpellsSign false []
  | plus : SpellsSign false ['+']
  | minus : SpellsSign true ['-']

/-- The sign and the digits of an exponent, if there is one, stand behind an `e`. -/
inductive SpellsExponent : Option (Bool × List Char) → List Char → Prop
  | absent : SpellsExponent none []
  | digits {mark : Char} {negative : Bool} {sign ds : List Char} (hMark : mark = 'e' ∨ mark = 'E')
      (hSign : SpellsSign negative sign) (h : AreDigits ds) :
      SpellsExponent (some (negative, ds)) (mark :: (sign ++ ds))

/-- The spellings of a numeral, which has no sign. -/
inductive SpellsNumeral : Numeral → List Char → Prop
  | parts {whole fraction fs es : List Char} {exponent : Option (Bool × List Char)}
      (hWhole : AreDigits whole) (hFraction : SpellsFraction fraction fs)
      (hExponent : SpellsExponent exponent es) :
      SpellsNumeral ⟨false, whole, fraction, exponent⟩ (whole ++ (fs ++ es))

/-- The spellings of a token. -/
inductive Spells : Token → List Char → Prop
  | keyword (k : Keyword) : Spells (.keyword k) k.text.toList
  | mark (m : Mark) : Spells (.mark m) m.text.toList
  | int {cs : List Char} (h : AreDigits cs) (hBound : digitsValue cs < wordBound) :
      Spells (.int (digitsValue cs)) cs
  | decimal {n : Numeral} {cs : List Char} (h : SpellsNumeral n cs)
      (hParts : n.fraction ≠ [] ∨ n.exponent ≠ none) : Spells (.decimal n.toFloat) cs
  | identifier {name : String} (h : IsWord name.toList) (hWord : Keyword.ofText? name = none) :
      Spells (.identifier name) name.toList
  | newline (k : Nat) : Spells .newline (List.replicate (k + 1) '\n')

/-- Blanks within a line, or a comment. -/
inductive IsBlank : List Char → Prop
  | run {cs : List Char} (hNonempty : cs ≠ []) (h : ∀ c ∈ cs, isLineBlank c) : IsBlank cs
  | comment {cs : List Char} (h : ∀ c ∈ cs, c ≠ '\n') : IsBlank ('#' :: cs)

/-- What a piece of a text may be. A word is a keyword or an identifier, and whole numbers are
not bounded here. -/
inductive Matches : List Char → Prop
  | blank {cs : List Char} (h : IsBlank cs) : Matches cs
  | word {cs : List Char} (h : IsWord cs) : Matches cs
  | numeral {n : Numeral} {cs : List Char} (h : SpellsNumeral n cs) : Matches cs
  | mark (m : Mark) : Matches m.text.toList
  | newlines (k : Nat) : Matches (List.replicate (k + 1) '\n')

/-- No match that begins with the piece takes more of the text behind it. -/
def EndsMatch (cs rest : List Char) : Prop :=
  ∀ more after, rest = more ++ after → Matches (cs ++ more) → more = []

/-- The text spells the row of tokens. -/
inductive Spelled : List Char → List Token → Prop
  | nil : Spelled [] []
  | blank {cs rest : List Char} {ts : List Token} (h : IsBlank cs) (hEnds : EndsMatch cs rest)
      (hRest : Spelled rest ts) : Spelled (cs ++ rest) ts
  | token {t : Token} {cs rest : List Char} {ts : List Token} (h : Spells t cs)
      (hEnds : EndsMatch cs rest) (hRest : Spelled rest ts) : Spelled (cs ++ rest) (t :: ts)

/-! ## Where a piece ends -/

/-- A run of characters that could go on with one more of its kind ends where none follows. -/
theorem EndsMatch.run_ends {p : Char → Bool} {cs rest : List Char} (h : EndsMatch cs rest)
    (hMore : ∀ c, p c → Matches (cs ++ [c])) : ∀ c ∈ rest.head?, p c = false := by
  intro c hc
  obtain ⟨after, rfl⟩ := List.head?_eq_some_iff.mp hc
  by_contra hp
  exact absurd (h [c] after rfl (hMore c (by simpa using hp))) (by simp)

theorem Keyword.ofText?_text (k : Keyword) : Keyword.ofText? k.text = some k := by
  cases k <;> decide

theorem Mark.ofText?_text (m : Mark) : Mark.ofText? m.text = some m := by
  cases m <;> decide

theorem Mark.text_of_ofText? {s : String} {m : Mark} (h : Mark.ofText? s = some m) :
    m.text = s := by
  simpa using List.find?_some h

theorem Keyword.isWord (k : Keyword) : IsWord k.text.toList := by
  cases k <;> exact ⟨by decide, List.all_eq_true.mp (by decide)⟩

theorem IsWord.append {cs more : List Char} (h : IsWord cs) (hMore : ∀ d ∈ more, isNamePart d) :
    IsWord (cs ++ more) := by
  cases cs with
  | nil => exact h.elim
  | cons c cs =>
    refine ⟨h.1, ?_⟩
    intro d hd
    exact (List.mem_append.mp hd).elim (h.2 d) (hMore d)

theorem AreDigits.append {cs more : List Char} (h : AreDigits cs)
    (hMore : ∀ d ∈ more, d.isDigit) : AreDigits (cs ++ more) := by
  refine ⟨by simp [h.1], ?_⟩
  intro d hd
  exact (List.mem_append.mp hd).elim (h.2 d) (hMore d)

theorem areDigits_takeWhile {cs : List Char} (h : (cs.takeWhile Char.isDigit).isEmpty = false) :
    AreDigits (cs.takeWhile Char.isDigit) :=
  ⟨by simpa using h, fun _ hc => (List.all_eq_true.mp List.all_takeWhile) _ hc⟩

/-! ## Reading one piece -/

variable {c : Char} {more rest : List Char} {t : Token}

theorem IsBlank.pieceAt (h : IsBlank (c :: more)) (hEnds : EndsMatch (c :: more) rest) :
    pieceAt c (more ++ rest) = (.blank, more.length) := by
  generalize hcs : c :: more = cs at h hEnds
  cases h with
  | run hNonempty hBlanks =>
    subst hcs
    have hc : isLineBlank c := hBlanks c List.mem_cons_self
    have hRest := hEnds.run_ends (p := isLineBlank) fun d hd =>
      .blank (.run (by simp) (List.forall_mem_append.mpr ⟨hBlanks, by simpa using hd⟩))
    have hMore : ∀ d ∈ more, isLineBlank d := fun d hd => hBlanks d (List.mem_cons_of_mem c hd)
    rw [Script.pieceAt, if_pos hc, (takeWhile_append_rest hMore hRest).1]
  | comment hComment =>
    obtain ⟨rfl, rfl⟩ := List.cons.inj hcs
    have hRest := hEnds.run_ends (p := (· ≠ '\n')) fun d hd =>
      .blank (.comment (List.forall_mem_append.mpr ⟨hComment, by simpa using hd⟩))
    have hMore : ∀ d ∈ more, decide (d ≠ '\n') := fun d hd => by simpa using hComment d hd
    rw [Script.pieceAt, if_neg (by decide), if_pos rfl, (takeWhile_append_rest hMore hRest).1]

theorem not_blank_of_isNamePart (h : isNamePart c) :
    ¬ isLineBlank c = true ∧ c ≠ '#' ∧ c ≠ '\n' := by
  refine ⟨?_, ?_, ?_⟩
  · intro hBlank
    simp only [isLineBlank, Bool.or_eq_true, decide_eq_true_eq] at hBlank
    rcases hBlank with (rfl | rfl) | rfl <;> exact absurd h (by decide)
  · rintro rfl
    exact absurd h (by decide)
  · rintro rfl
    exact absurd h (by decide)

/-- A word is taken as a whole. -/
theorem pieceAt_word (h : IsWord (c :: more)) (hEnds : EndsMatch (c :: more) rest) :
    pieceAt c (more ++ rest) =
      (.token (wordToken (String.ofList (c :: more))), more.length) := by
  have hRest := hEnds.run_ends (p := isNamePart) fun d hd =>
    .word (h.append (by simpa using hd))
  obtain ⟨hStart, hMore⟩ := h
  obtain ⟨hNotBlank, hNotComment, hNotLine⟩ := not_blank_of_isNamePart (c := c)
    (by simp [isNamePart, hStart])
  rw [pieceAt, if_neg hNotBlank, if_neg hNotComment, if_neg hNotLine, if_pos hStart]
  simp only [(takeWhile_append_rest hMore hRest).1]

/-- Line ends are taken together. -/
theorem pieceAt_newline {k : Nat} (hEnds : EndsMatch (List.replicate (k + 1) '\n') rest) :
    pieceAt '\n' (List.replicate k '\n' ++ rest) = (.token .newline, k) := by
  have hRest := hEnds.run_ends (p := (· = '\n')) fun d hd => by
    obtain rfl : d = '\n' := by simpa using hd
    rw [← List.replicate_succ']
    exact .newlines (k + 1)
  have hMore : ∀ d ∈ List.replicate k '\n', decide (d = '\n') := fun d hd => by
    simpa using List.eq_of_mem_replicate hd
  rw [pieceAt, if_neg (by decide), if_neg (by decide), if_pos rfl,
    (takeWhile_append_rest hMore hRest).1, List.length_replicate]

/-! ### Marks -/

theorem Mark.exists_text (m : Mark) :
    (∃ a, m.text.toList = [a]) ∨ ∃ a b, m.text.toList = [a, b] := by
  cases m <;> first | exact Or.inl ⟨_, rfl⟩ | exact Or.inr ⟨_, _, rfl⟩

/-- A mark begins with none of the characters that other tokens and blanks begin with. -/
theorem pieceAt_of_mark {m : Mark} (h : m.text.toList = c :: more) (rest : List Char) :
    pieceAt c rest = scanMark c rest := by
  have hFirst : isLineBlank c = false ∧ c ≠ '#' ∧ c ≠ '\n' ∧ isNameStart c = false ∧
      c.isDigit = false := by
    have hHead : m.text.toList.head? = some c := by rw [h]; rfl
    cases m <;> (obtain rfl := Option.some.inj hHead; decide)
  obtain ⟨hBlank, hComment, hLine, hName, hDigit⟩ := hFirst
  simp [pieceAt, hBlank, hComment, hLine, hName, hDigit]

/-- A mark is taken as a whole, and not for the first half of a longer one. -/
theorem pieceAt_mark {m : Mark} (h : m.text.toList = c :: more)
    (hEnds : EndsMatch m.text.toList rest) :
    pieceAt c (more ++ rest) = (.token (.mark m), more.length) := by
  have hText : String.ofList (c :: more) = m.text := by rw [← h, String.ofList_toList]
  rw [pieceAt_of_mark h]
  rcases m.exists_text with ⟨a, hOne⟩ | ⟨a, b, hTwo⟩
  · obtain ⟨rfl, rfl⟩ : c = a ∧ more = [] := by simpa [h] using hOne
    cases rest with
    | nil => simp [scanMark, hText, Mark.ofText?_text]
    | cons d rest =>
      -- With one more character there would be a longer match, which `hEnds` rules out.
      have hNone : Mark.ofText? (String.ofList [c, d]) = none := by
        cases hLonger : Mark.ofText? (String.ofList [c, d]) with
        | none => rfl
        | some m' =>
          have hList : m'.text.toList = m.text.toList ++ [d] := by
            rw [Mark.text_of_ofText? hLonger, h, String.toList_ofList]
            rfl
          exact absurd (hEnds [d] rest rfl (hList ▸ .mark m')) (by simp)
      have hSingle : Mark.ofText? c.toString = some m := by
        rw [show c.toString = m.text from hText, Mark.ofText?_text]
      simp only [scanMark, List.nil_append, List.take_succ_cons, List.take_zero, hNone, hSingle,
        List.length_nil]
  · obtain ⟨rfl, rfl⟩ : c = a ∧ more = [b] := by simpa [h] using hTwo
    simp [scanMark, hText, Mark.ofText?_text]

/-! ### Numerals -/

theorem SpellsFraction.of_mem {ds fs : List Char} (h : SpellsFraction ds fs) {d : Char}
    (hd : d ∈ fs) : d = '.' ∨ d.isDigit := by
  cases h with
  | absent => exact absurd hd List.not_mem_nil
  | digits h => exact (List.mem_cons.mp hd).imp_right (h.2 d)

/-- A fraction is read up to its end. Where none stands, a point without digits is left. -/
theorem readFraction_spelled {ds fs : List Char} (h : SpellsFraction ds fs)
    (hEnds : ∀ more after, rest = more ++ after →
      (∃ ds', SpellsFraction ds' (fs ++ more)) → more = []) :
    (readFraction (fs ++ rest)).getD ([], fs ++ rest) = (ds, rest) := by
  cases h with
  | absent =>
    rw [List.nil_append]
    unfold readFraction
    split
    · rename_i after
      -- Digits behind the point would make a fraction.
      cases hEmpty : (after.takeWhile Char.isDigit).isEmpty with
      | true => simp [hEmpty]
      | false =>
        have hMore := hEnds ('.' :: after.takeWhile Char.isDigit) (after.dropWhile Char.isDigit)
          (by simp [List.takeWhile_append_dropWhile]) ⟨_, .digits (areDigits_takeWhile hEmpty)⟩
        exact absurd hMore (by simp)
    · rfl
  | digits h =>
    have hRest : ∀ d ∈ rest.head?, d.isDigit = false := by
      intro d hd
      obtain ⟨after, rfl⟩ := List.head?_eq_some_iff.mp hd
      by_contra hDigit
      have hLonger : AreDigits (_ ++ [d]) := h.append (by simpa using hDigit)
      exact absurd (hEnds [d] after rfl ⟨_, .digits hLonger⟩) (by simp)
    obtain ⟨hTake, hDrop⟩ := takeWhile_append_rest h.2 hRest
    rw [List.cons_append, readFraction, hTake, hDrop]
    simp [h.1]

/-- The sign of an exponent is taken from a text that does not begin with another one. -/
theorem readExponent_sign {mark : Char} (hMark : mark = 'e' ∨ mark = 'E') {negative : Bool}
    {sign after : List Char} (hSign : SpellsSign negative sign)
    (hNoSign : sign = [] → ∀ d ∈ after.head?, d ≠ '+' ∧ d ≠ '-') :
    readExponent (mark :: (sign ++ after)) =
      if (after.takeWhile Char.isDigit).isEmpty then none
      else some (some (negative, after.takeWhile Char.isDigit), after.dropWhile Char.isDigit) := by
  have hLetter : (decide (mark = 'e') || decide (mark = 'E')) = true := by simpa using hMark
  simp only [readExponent, if_pos hLetter]
  cases hSign with
  | plus => rfl
  | minus => rfl
  | absent =>
    cases after with
    | nil => rfl
    | cons d after =>
      obtain ⟨hPlus, hMinus⟩ := hNoSign rfl d rfl
      simp [hPlus, hMinus]

theorem exists_sign (cs : List Char) : ∃ negative sign after, SpellsSign negative sign ∧
    cs = sign ++ after ∧ (sign = [] → ∀ d ∈ after.head?, d ≠ '+' ∧ d ≠ '-') := by
  match cs with
  | [] => exact ⟨false, [], [], .absent, rfl, by simp⟩
  | d :: cs =>
    by_cases hPlus : d = '+'
    · exact ⟨false, ['+'], cs, .plus, by rw [hPlus]; rfl, by simp⟩
    · by_cases hMinus : d = '-'
      · exact ⟨true, ['-'], cs, .minus, by rw [hMinus]; rfl, by simp⟩
      · exact ⟨false, [], d :: cs, .absent, rfl, by simp [hPlus, hMinus]⟩

/-- An exponent is read up to its end. Where none stands, an `e` without digits is left. -/
theorem readExponent_spelled {x : Option (Bool × List Char)} {es : List Char}
    (h : SpellsExponent x es)
    (hEnds : ∀ more after, rest = more ++ after →
      (∃ x', SpellsExponent x' (es ++ more)) → more = []) :
    (readExponent (es ++ rest)).getD (none, es ++ rest) = (x, rest) := by
  cases h with
  | absent =>
    rw [List.nil_append]
    match rest, hEnds with
    | [], _ => rfl
    | mark :: cs, hEnds =>
      by_cases hMark : mark = 'e' ∨ mark = 'E'
      · obtain ⟨negative, sign, after, hSign, rfl, hNoSign⟩ := exists_sign cs
        rw [readExponent_sign hMark hSign hNoSign]
        -- Digits behind the sign would make an exponent.
        cases hEmpty : (after.takeWhile Char.isDigit).isEmpty with
        | true => rfl
        | false =>
          have hMore := hEnds (mark :: (sign ++ after.takeWhile Char.isDigit))
            (after.dropWhile Char.isDigit) (by simp [List.takeWhile_append_dropWhile])
            ⟨_, .digits hMark hSign (areDigits_takeWhile hEmpty)⟩
          exact absurd hMore (by simp)
      · have hLetter : ¬ (decide (mark = 'e') || decide (mark = 'E')) = true := by
          simpa using hMark
        simp only [readExponent, if_neg hLetter]
        rfl
  | @digits mark negative sign ds hMark hSign h =>
    have hRest : ∀ d ∈ rest.head?, d.isDigit = false := by
      intro d hd
      obtain ⟨after, rfl⟩ := List.head?_eq_some_iff.mp hd
      by_contra hDigit
      have hDigits : AreDigits (ds ++ [d]) := h.append (by simpa using hDigit)
      have hLonger := SpellsExponent.digits hMark hSign hDigits
      exact absurd (hEnds [d] after rfl ⟨_, by simpa using hLonger⟩) (by simp)
    obtain ⟨hTake, hDrop⟩ := takeWhile_append_rest h.2 hRest
    have hNoSign : ∀ d ∈ (ds ++ rest).head?, d ≠ '+' ∧ d ≠ '-' := by
      obtain ⟨d, ds, rfl⟩ := List.exists_cons_of_ne_nil h.1
      have hd : d.isDigit := h.2 d List.mem_cons_self
      intro d' hd'
      obtain rfl : d = d' := Option.some.inj hd'
      constructor <;> (rintro rfl; exact absurd hd (by decide))
    rw [List.cons_append, List.append_assoc, readExponent_sign hMark hSign fun _ => hNoSign, hTake,
      hDrop]
    simp [h.1]

/-- A numeral is read up to its end. -/
theorem scanNumber_spelled {n : Numeral} {cs : List Char} (h : SpellsNumeral n cs)
    (hEnds : EndsMatch cs rest) :
    scanNumber (cs ++ rest) =
      (if n.fraction.isEmpty && n.exponent.isNone then
        if digitsValue n.whole < wordBound then .token (.int (digitsValue n.whole)) else .unknown
      else .token (.decimal n.toFloat), rest) := by
  obtain ⟨hWhole, hFraction, hExponent⟩ := h
  rename_i whole fraction fs es exponent
  -- More of a part would be more of the numeral.
  have hExponentEnds : ∀ more after, rest = more ++ after →
      (∃ x', SpellsExponent x' (es ++ more)) → more = [] := by
    rintro more after hRest ⟨x', hMore⟩
    apply hEnds more after hRest
    rw [List.append_assoc, List.append_assoc]
    exact .numeral (.parts hWhole hFraction hMore)
  have hFractionEnds : ∀ more after, es ++ rest = more ++ after →
      (∃ ds', SpellsFraction ds' (fs ++ more)) → more = [] := by
    rintro more after hRest ⟨ds', hMore⟩
    cases hExponent with
    | absent =>
      apply hEnds more after hRest
      rw [List.append_nil, List.append_assoc]
      have hLonger := SpellsNumeral.parts hWhole hMore .absent
      rw [List.append_nil] at hLonger
      exact .numeral hLonger
    | digits hMark hSign h =>
      cases more with
      | nil => rfl
      | cons d more =>
        obtain ⟨rfl, -⟩ := List.cons.inj hRest
        have hPart := hMore.of_mem (d := _) (List.mem_append_right fs List.mem_cons_self)
        rcases hMark with rfl | rfl <;> exact absurd hPart (by decide)
  have hWholeEnds : ∀ d ∈ (fs ++ (es ++ rest)).head?, d.isDigit = false := by
    intro d hd
    cases hFraction with
    | digits h =>
      obtain rfl : '.' = d := Option.some.inj hd
      rfl
    | absent =>
      cases hExponent with
      | digits hMark hSign h =>
        obtain rfl := Option.some.inj hd
        rcases hMark with rfl | rfl <;> rfl
      | absent =>
        apply hEnds.run_ends ?_ d hd
        intro d' hd'
        have hDigits : AreDigits (_ ++ [d']) := hWhole.append (by simpa using hd')
        have hLonger := SpellsNumeral.parts hDigits .absent .absent
        rw [List.append_nil, List.append_nil] at hLonger ⊢
        exact .numeral hLonger
  obtain ⟨hTake, hDrop⟩ := takeWhile_append_rest hWhole.2 hWholeEnds
  simp only [scanNumber, List.append_assoc, hTake, hDrop,
    readFraction_spelled hFraction hFractionEnds, readExponent_spelled hExponent hExponentEnds]
  split <;> rfl

theorem SpellsNumeral.exists_digit {n : Numeral} {cs : List Char} (h : SpellsNumeral n cs) :
    ∃ d more, cs = d :: more ∧ d.isDigit := by
  obtain ⟨hWhole, -, -⟩ := h
  obtain ⟨d, ds, rfl⟩ := List.exists_cons_of_ne_nil hWhole.1
  exact ⟨d, _, rfl, hWhole.2 d List.mem_cons_self⟩

/-- A number is taken up to where its scan ends. -/
theorem pieceAt_digit (hc : c.isDigit) (cs : List Char) :
    pieceAt c cs = ((scanNumber (c :: cs)).1, cs.length - (scanNumber (c :: cs)).2.length) := by
  obtain ⟨hNotBlank, hNotComment, hNotLine⟩ := not_blank_of_isNamePart (c := c)
    (by simp [isNamePart, hc])
  have hNotName : ¬ isNameStart c = true := by
    intro hName
    rcases (Bool.or_eq_true _ _).mp hName with hAlpha | hLow
    · exact not_isDigit_of_isAlpha hAlpha hc
    · rw [decide_eq_true_eq] at hLow
      exact absurd (hLow ▸ hc) (by decide)
  rw [pieceAt, if_neg hNotBlank, if_neg hNotComment, if_neg hNotLine, if_neg hNotName, if_pos hc]

theorem pieceAt_numeral {n : Numeral} (h : SpellsNumeral n (c :: more))
    (hEnds : EndsMatch (c :: more) rest) :
    pieceAt c (more ++ rest) =
      (if n.fraction.isEmpty && n.exponent.isNone then
        if digitsValue n.whole < wordBound then .token (.int (digitsValue n.whole)) else .unknown
      else .token (.decimal n.toFloat), more.length) := by
  obtain ⟨d, more', hEq, hDigit⟩ := h.exists_digit
  obtain ⟨rfl, rfl⟩ := List.cons.inj hEq
  have hScan := scanNumber_spelled h hEnds
  rw [List.cons_append] at hScan
  rw [pieceAt_digit hDigit, hScan]
  simp

/-- **The spelling of a token is taken as a whole.** -/
theorem Spells.pieceAt (h : Spells t (c :: more)) (hEnds : EndsMatch (c :: more) rest) :
    pieceAt c (more ++ rest) = (.token t, more.length) := by
  generalize hcs : c :: more = cs at h
  cases h with
  | keyword k =>
    have hText : String.ofList (c :: more) = k.text := by rw [hcs, String.ofList_toList]
    rw [pieceAt_word (hcs ▸ k.isWord) hEnds, hText, wordToken, Keyword.ofText?_text]
  | mark m => exact pieceAt_mark hcs.symm (hcs ▸ hEnds)
  | int h hBound =>
    subst hcs
    have hNumeral := SpellsNumeral.parts h .absent .absent
    rw [List.append_nil, List.append_nil] at hNumeral
    rw [pieceAt_numeral hNumeral hEnds]
    simp [hBound]
  | @decimal n _ h hParts =>
    subst hcs
    -- A fraction or an exponent makes the numeral a decimal.
    have hNotWhole : ¬ (n.fraction.isEmpty && n.exponent.isNone) = true := by
      rintro hWhole
      simp only [Bool.and_eq_true, List.isEmpty_iff, Option.isNone_iff_eq_none] at hWhole
      exact hParts.elim (absurd hWhole.1) (absurd hWhole.2)
    rw [pieceAt_numeral h hEnds, if_neg hNotWhole]
  | @identifier name h hWord =>
    have hText : String.ofList (c :: more) = name := by rw [hcs, String.ofList_toList]
    rw [pieceAt_word (hcs ▸ h) hEnds, hText, wordToken, hWord]
  | newline k =>
    rw [List.replicate_succ] at hcs
    obtain ⟨rfl, rfl⟩ := List.cons.inj hcs
    rw [pieceAt_newline (by simpa [List.replicate_succ] using hEnds), List.length_replicate]

/-! ## Reading texts -/

/-- What is read of a text goes on behind the first piece. -/
theorem lexFrom_piece {piece : Piece} (h : pieceAt c (more ++ rest) = (piece, more.length))
    (start : Nat) : lexFrom start (c :: more ++ rest) =
      (lexFrom (start + (String.ofList (c :: more)).utf8ByteSize) rest).cons piece
        (String.ofList (c :: more)) ⟨start, start + (String.ofList (c :: more)).utf8ByteSize⟩ := by
  rw [List.cons_append, lexFrom, h]
  simp only [List.drop_left, List.take_left]

theorem Spells.ne_nil {cs : List Char} (h : Spells t cs) : cs ≠ [] := by
  cases h with
  | keyword k => cases k <;> decide
  | mark m => cases m <;> decide
  | int h => exact h.1
  | decimal h =>
    obtain ⟨d, more, rfl, -⟩ := h.exists_digit
    exact List.cons_ne_nil d more
  | identifier h =>
    rintro hEmpty
    rw [hEmpty] at h
    exact h
  | newline k => simp

theorem IsBlank.ne_nil {cs : List Char} (h : IsBlank cs) : cs ≠ [] := by
  cases h with
  | run hNonempty => exact hNonempty
  | comment => exact List.cons_ne_nil _ _

/-- The tokens of a text that spells a row of them, from any place on. -/
theorem Spelled.lexFrom {cs : List Char} {ts : List Token} (h : Spelled cs ts) (start : Nat) :
    (lexFrom start cs).tokens.map (·.token) = ts ∧ (lexFrom start cs).errors = [] := by
  induction h generalizing start with
  | nil =>
    rw [Script.lexFrom]
    exact ⟨rfl, rfl⟩
  | blank h hEnds _ ih =>
    obtain ⟨c, more, rfl⟩ := List.exists_cons_of_ne_nil h.ne_nil
    rw [lexFrom_piece (h.pieceAt hEnds)]
    exact ih _
  | token h hEnds _ ih =>
    obtain ⟨c, more, rfl⟩ := List.exists_cons_of_ne_nil h.ne_nil
    rw [lexFrom_piece (h.pieceAt hEnds)]
    obtain ⟨hTokens, hErrors⟩ := ih _
    exact ⟨congrArg _ hTokens, hErrors⟩

/-- **A text is read as the tokens that it spells.** -/
theorem lex_spelled {source : String} {ts : List Token} (h : Spelled source.toList ts) :
    (lex source).tokens.map (·.token) = ts ∧ (lex source).errors = [] :=
  h.lexFrom 0

/-! ## Texts of rows -/

/-- No token begins as blanks do. -/
theorem Spells.begins (h : Spells t (c :: more)) : ¬ isLineBlank c = true ∧ c ≠ '#' := by
  have hEnds : EndsMatch (c :: more) [] := fun _ _ hNil _ =>
    (List.append_eq_nil_iff.mp hNil.symm).1
  have hPiece := h.pieceAt hEnds
  constructor
  · intro hBlank
    rw [Script.pieceAt, if_pos hBlank] at hPiece
    exact absurd (Prod.mk.inj hPiece).1 (by simp)
  · rintro rfl
    rw [Script.pieceAt, if_neg (by decide), if_pos rfl] at hPiece
    exact absurd (Prod.mk.inj hPiece).1 (by simp)

theorem Spells.not_isBlank {cs more : List Char} (h : Spells t cs) : ¬ IsBlank (cs ++ more) := by
  obtain ⟨c, cs, rfl⟩ := List.exists_cons_of_ne_nil h.ne_nil
  obtain ⟨hNotBlank, hNotComment⟩ := h.begins
  intro hBlank
  generalize hText : c :: cs ++ more = text at hBlank
  cases hBlank with
  | run hNonempty hRun => exact hNotBlank (hRun c (by simp [← hText]))
  | comment => exact hNotComment (List.cons.inj hText).1

theorem SpellsNumeral.not_mem_blank {n : Numeral} {cs : List Char} (h : SpellsNumeral n cs) :
    ' ' ∉ cs := by
  obtain ⟨hWhole, hFraction, hExponent⟩ := h
  have hNone : ∀ {ds : List Char}, AreDigits ds → ' ' ∉ ds := fun h hMem =>
    absurd (h.2 _ hMem) (by decide)
  rw [List.mem_append, List.mem_append]
  rintro (hMem | hMem | hMem)
  · exact hNone hWhole hMem
  · exact absurd (hFraction.of_mem hMem) (by decide)
  · cases hExponent with
    | absent => exact absurd hMem List.not_mem_nil
    | digits hMark hSign h =>
      rcases List.mem_cons.mp hMem with rfl | hMem
      · exact absurd hMark (by decide)
      · rcases List.mem_append.mp hMem with hMem | hMem
        · cases hSign <;> exact absurd hMem (by decide)
        · exact hNone h hMem

/-- Only blanks and comments have blanks in them. -/
theorem Matches.isBlank {cs : List Char} (h : Matches cs) (hMem : ' ' ∈ cs) : IsBlank cs := by
  cases h with
  | blank h => exact h
  | word h =>
    cases cs with
    | nil => exact h.elim
    | cons c more =>
      rcases List.mem_cons.mp hMem with rfl | hMem
      · exact absurd h.1 (by decide)
      · exact absurd (h.2 _ hMem) (by decide)
  | numeral h => exact absurd hMem h.not_mem_blank
  | mark m => cases m <;> exact absurd hMem (by decide)
  | newlines k => exact absurd (List.eq_of_mem_replicate hMem) (by decide)

/-- A token ends before a blank. -/
theorem Spells.ends_before_blank {cs : List Char} (h : Spells t cs) (rest : List Char) :
    EndsMatch cs (' ' :: rest) := by
  intro more after hRest hMatches
  cases more with
  | nil => rfl
  | cons c more =>
    obtain ⟨rfl, -⟩ := List.cons.inj hRest
    exact absurd (hMatches.isBlank (by simp)) h.not_isBlank

/-- A blank ends before a token. -/
theorem blank_ends {rest : List Char} (h : ∀ c, rest.head? = some c → ¬ isLineBlank c) :
    EndsMatch [' '] rest := by
  intro more after hRest hMatches
  cases more with
  | nil => rfl
  | cons c more =>
    have hBlank := hMatches.isBlank (by simp)
    generalize hText : [' '] ++ c :: more = text at hBlank
    cases hBlank with
    | run _ hRun =>
      subst hText
      exact absurd (hRun c (by simp)) (h c (by rw [hRest]; rfl))
    | comment => exact absurd (List.cons.inj hText).1 (by decide)

/-- **A row of tokens has a text**: their spellings, each with a blank behind it. -/
theorem exists_spelled {ts : List Token} (h : ∀ t ∈ ts, ∃ cs, Spells t cs) :
    ∃ cs, Spelled cs ts ∧ ∀ c, cs.head? = some c → ¬ isLineBlank c := by
  induction ts with
  | nil => exact ⟨[], .nil, by simp⟩
  | cons t ts ih =>
    obtain ⟨cs, hSpells⟩ := h t List.mem_cons_self
    obtain ⟨rest, hRest, hFirst⟩ := ih fun t ht => h t (List.mem_cons_of_mem _ ht)
    have hBlank : Spelled ([' '] ++ rest) ts :=
      .blank (.run (by simp) (by simp [isLineBlank])) (blank_ends hFirst) hRest
    refine ⟨cs ++ ([' '] ++ rest), .token hSpells (hSpells.ends_before_blank rest) hBlank, ?_⟩
    intro c hc hLineBlank
    obtain ⟨d, ds, rfl⟩ := List.exists_cons_of_ne_nil hSpells.ne_nil
    obtain rfl := Option.some.inj hc
    exact hSpells.begins.1 hLineBlank

end ArrayEquations.Script
