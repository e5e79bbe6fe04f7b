import ArrayEquations.Proofs.DocumentNumerals

/-!
# ArrayEquations — reading documents back

The grammar of documents, as far as they are written: a value may stand behind blanks, and
so may commas and closing marks. Both layouts of a document follow it, and a document that
follows it is read back.

## Main definitions

* `Json.Legible` — a tree whose texts, numerals and lists are all whole.
* `Json.Spells` — the texts of a value, and of the rest of a list or an object.

## Main results

* `readDocument_of_spells` — what is spelled is read.
* `readDocument_compact`, `readDocument_pretty` — both layouts are read back.
-/

namespace ArrayEquations

/-! ## Texts -/

/-- The reader of texts takes the piece for the character. -/
inductive TextPiece.StandsFor : TextPiece → Char → Prop
  | char (c : Char) : StandsFor (.char c) c
  | control {c : Char} (h : c.toNat < 32) : StandsFor (.unit c.toNat) c

theorem readPieces_escape {letter c : Char} (h : escapeValue? letter = some c)
    (hLetter : letter ≠ 'u') (rest : List Char) :
    readPieces ('\\' :: letter :: rest) =
      (readPieces rest).map fun x => (.char c :: x.1, x.2) := by
  rw [readPieces, h]
  · cases readPieces rest <;> rfl
  · intro _ _ _ _ _ hEq
    exact absurd hEq hLetter

theorem readPieces_plain {c : Char} (hQuote : c ≠ '"') (hSlash : c ≠ '\\') (h : ¬ c.toNat < 32)
    (rest : List Char) :
    readPieces (c :: rest) = (readPieces rest).map fun x => (.char c :: x.1, x.2) := by
  rw [readPieces, if_neg h]
  · cases readPieces rest <;> rfl
  · exact hQuote
  · intro _ _ _ _ _ hEq
    exact absurd hEq hSlash
  · intro _ _ hEq
    exact absurd hEq hSlash

theorem unitValue?_of_lt {n : Nat} (h : n < 32) :
    unitValue? (Nat.digitChar (n / 4096 % 16)) (Nat.digitChar (n / 256 % 16))
      (Nat.digitChar (n / 16 % 16)) (Nat.digitChar (n % 16)) = some n := by
  revert n
  decide

theorem readPieces_control {n : Nat} (h : n < 32) (rest : List Char) :
    readPieces ('\\' :: 'u' :: (Json.hexDigits n ++ rest)) =
      (readPieces rest).map fun x => (.unit n :: x.1, x.2) := by
  show readPieces ('\\' :: 'u' :: _ :: _ :: _ :: _ :: rest) = _
  rw [readPieces, unitValue?_of_lt h]
  cases readPieces rest <;> rfl

/-- A character is read back from its spelling inside a text. -/
theorem readPieces_escapedChar (c : Char) (rest : List Char) : ∃ p : TextPiece, p.StandsFor c ∧
    readPieces (Json.escapedChar c ++ rest) =
      (readPieces rest).map fun x => (p :: x.1, x.2) := by
  -- Seven characters have an escape of one letter.
  have hEscape : ∀ letter, escapeValue? letter = some c → letter ≠ 'u' →
      ∃ p : TextPiece, p.StandsFor c ∧ readPieces (['\\', letter] ++ rest) =
        (readPieces rest).map fun x => (p :: x.1, x.2) :=
    fun letter h hLetter => ⟨.char c, .char c, readPieces_escape h hLetter rest⟩
  unfold Json.escapedChar
  by_cases hQuote : c = '"'
  · subst hQuote
    exact hEscape '"' rfl (by decide)
  by_cases hSlash : c = '\\'
  · subst hSlash
    exact hEscape '\\' rfl (by decide)
  rw [if_neg hQuote, if_neg hSlash]
  split
  · exact hEscape 'b' (by simp [*, escapeValue?]) (by decide)
  split
  · exact hEscape 'f' (by simp [*, escapeValue?]) (by decide)
  split
  · exact hEscape 'n' (by simp [*, escapeValue?]) (by decide)
  split
  · exact hEscape 'r' (by simp [*, escapeValue?]) (by decide)
  split
  · exact hEscape 't' (by simp [*, escapeValue?]) (by decide)
  split
  · rename_i h
    exact ⟨.unit c.toNat, .control h, readPieces_control h rest⟩
  · rename_i h
    exact ⟨.char c, .char c, readPieces_plain hQuote hSlash h rest⟩

/-- The pieces of a text up to its closing quote. -/
theorem readPieces_escaped (cs rest : List Char) : ∃ ps : List TextPiece,
    List.Forall₂ TextPiece.StandsFor ps cs ∧
      readPieces (cs.flatMap Json.escapedChar ++ '"' :: rest) = some (ps, rest) := by
  induction cs with
  | nil => exact ⟨[], .nil, by rw [List.flatMap_nil, List.nil_append, readPieces]⟩
  | cons c cs ih =>
    obtain ⟨ps, hAll, hRead⟩ := ih
    obtain ⟨p, hOne, hEscaped⟩ :=
      readPieces_escapedChar c (cs.flatMap Json.escapedChar ++ '"' :: rest)
    refine ⟨p :: ps, .cons hOne hAll, ?_⟩
    rw [List.flatMap_cons, List.append_assoc, hEscaped, hRead]
    rfl

/-- Controls are no surrogates, so each of them is a character by itself. -/
theorem piecesText?_cons {p : TextPiece} {c : Char} (h : p.StandsFor c) (ps : List TextPiece) :
    piecesText? (p :: ps) = (piecesText? ps).map (c :: ·) := by
  cases h with
  | char => rw [piecesText?]
  | control h =>
    have hSurrogate : ¬ isSurrogate c.toNat = true := by
      simp only [isSurrogate, Bool.and_eq_true, decide_eq_true_eq, not_and]
      omega
    have hChar : Char.ofNat c.toNat = c := Char.ofNat_toNat c
    match ps with
    | [] => simp only [piecesText?, if_neg hSurrogate, hChar, Option.map_some]
    | .char d :: ps =>
      simp only [piecesText?, if_neg hSurrogate, hChar, Option.map_map, Function.comp_def]
    | .unit m :: ps => simp only [piecesText?, if_neg hSurrogate, hChar]

theorem piecesText?_eq {ps : List TextPiece} {cs : List Char}
    (h : List.Forall₂ TextPiece.StandsFor ps cs) : piecesText? ps = some cs := by
  induction h with
  | nil => rw [piecesText?]
  | cons hOne _ ih => rw [piecesText?_cons hOne, ih, Option.map_some]

/-- **A text is read back from behind its opening quote.** -/
theorem readString_quoted (s : String) (rest : List Char) :
    readString (s.toList.flatMap Json.escapedChar ++ '"' :: rest) = some (some s, rest) := by
  obtain ⟨ps, hAll, hRead⟩ := readPieces_escaped s.toList rest
  rw [readString, hRead]
  show some ((piecesText? ps).map String.ofList, rest) = _
  rw [piecesText?_eq hAll, Option.map_some, String.ofList_toList]

/-! ## Blanks -/

/-- Only blanks of the notation. -/
def AreBlanks (b : List Char) : Prop := ∀ c ∈ b, c = ' ' ∨ c = '\n' ∨ c = '\t' ∨ c = '\r'

/-- The character is neither a blank nor a mark that closes a list or an object. -/
def BeginsValue (c : Char) : Prop :=
  c ≠ ' ' ∧ c ≠ '\n' ∧ c ≠ '\t' ∧ c ≠ '\r' ∧ c ≠ ']' ∧ c ≠ '}'

instance (c : Char) : Decidable (BeginsValue c) := inferInstanceAs (Decidable (_ ∧ _))

theorem areBlanks_nil : AreBlanks [] := fun _ hc => absurd hc List.not_mem_nil

theorem skipBlanks_append {b : List Char} (h : AreBlanks b) (cs : List Char) :
    skipBlanks (b ++ cs) = skipBlanks cs := by
  apply List.dropWhile_append_of_pos
  intro c hc
  simpa [or_assoc] using h c hc

theorem skipBlanks_cons {c : Char} (h : c ≠ ' ' ∧ c ≠ '\n' ∧ c ≠ '\t' ∧ c ≠ '\r')
    (cs : List Char) : skipBlanks (c :: cs) = c :: cs := by
  apply List.dropWhile_cons_of_neg
  simp [h]

theorem BeginsValue.skipBlanks {c : Char} (h : BeginsValue c) {b : List Char} (hb : AreBlanks b)
    (cs : List Char) : skipBlanks (b ++ c :: cs) = c :: cs := by
  obtain ⟨hSpace, hLine, hTab, hReturn, -⟩ := h
  rw [skipBlanks_append hb, skipBlanks_cons ⟨hSpace, hLine, hTab, hReturn⟩]

theorem beginsValue_of_isDigit {c : Char} (h : c.isDigit) : BeginsValue c :=
  ⟨ne_of_isDigit h rfl, ne_of_isDigit h rfl, ne_of_isDigit h rfl, ne_of_isDigit h rfl,
    ne_of_isDigit h rfl, ne_of_isDigit h rfl⟩

/-- A numeral begins with its sign or a digit. -/
theorem Numeral.Legible.exists_chars {n : Numeral} (h : n.Legible) :
    ∃ c cs, n.chars = c :: cs ∧ (c = '-' ∨ c.isDigit) := by
  obtain ⟨c, cs, hWhole⟩ := List.exists_cons_of_ne_nil h.whole_ne_nil
  have hDigit : c.isDigit := h.whole_digits c (by simp [hWhole])
  by_cases hNegative : n.negative = true
  · exact ⟨'-', _, by rw [chars, if_pos hNegative]; rfl, Or.inl rfl⟩
  · exact ⟨c, _, by rw [chars, if_neg hNegative, hWhole]; rfl, Or.inr hDigit⟩

theorem endsNumeral_append {b : List Char} (h : AreBlanks b) {c : Char} {cs : List Char}
    (hc : c.isDigit = false ∧ c ≠ '.' ∧ c ≠ 'e' ∧ c ≠ 'E') : EndsNumeral (b ++ c :: cs) := by
  cases b with
  | nil => exact endsNumeral_cons hc
  | cons d b =>
    apply endsNumeral_cons
    rcases h d List.mem_cons_self with rfl | rfl | rfl | rfl <;> decide

/-! ## The grammar -/

namespace Json

/-- A text between quotes, as characters. -/
def quotedChars (s : String) : List Char := '"' :: (s.toList.flatMap escapedChar ++ ['"'])

/-- What stands before an item or a field: a comma unless it is the first, and blanks. -/
def separator (first : Bool) (blanks : List Char) : List Char :=
  if first then blanks else ',' :: blanks

/-- A part of a document: a value, or the rest of a list or an object with the mark that
closes it. -/
inductive Part where
  | value (j : Json)
  | items (first : Bool) (js : List Json)
  | fields (first : Bool) (fs : List (Option String × Json))

/-- The characters are a text of the part. -/
inductive Spells : Part → List Char → Prop
  | null : Spells (.value .null) ['n', 'u', 'l', 'l']
  | bool (b : Bool) :
      Spells (.value (.bool b)) (if b then ['t', 'r', 'u', 'e'] else ['f', 'a', 'l', 's', 'e'])
  | number {n : Numeral} (h : n.Legible) : Spells (.value (.number n)) n.chars
  | string (s : String) : Spells (.value (.string (some s))) (quotedChars s)
  | array {js : List Json} {cs : List Char} (h : Spells (.items true js) cs) :
      Spells (.value (.array js true)) ('[' :: cs)
  | object {fs : List (Option String × Json)} {cs : List Char}
      (h : Spells (.fields true fs) cs) : Spells (.value (.object fs true)) ('{' :: cs)
  | noItems {first : Bool} {b : List Char} (hb : AreBlanks b) :
      Spells (.items first []) (b ++ [']'])
  | item {first : Bool} {b cs rest : List Char} {j : Json} {js : List Json}
      (hb : AreBlanks b) (h : Spells (.value j) cs) (hRest : Spells (.items false js) rest) :
      Spells (.items first (j :: js)) (separator first b ++ (cs ++ rest))
  | noFields {first : Bool} {b : List Char} (hb : AreBlanks b) :
      Spells (.fields first []) (b ++ ['}'])
  | field {first : Bool} {b b' cs rest : List Char} {key : String} {j : Json}
      {fs : List (Option String × Json)} (hb : AreBlanks b) (hb' : AreBlanks b')
      (h : Spells (.value j) cs) (hRest : Spells (.fields false fs) rest) :
      Spells (.fields first ((some key, j) :: fs))
        (separator first b ++ (quotedChars key ++ ':' :: (b' ++ (cs ++ rest))))

theorem Spells.exists_begins {j : Json} {cs : List Char} (h : Spells (.value j) cs) :
    ∃ c cs', cs = c :: cs' ∧ BeginsValue c := by
  cases h with
  | null => exact ⟨_, _, rfl, by decide⟩
  | bool b => cases b <;> exact ⟨_, _, rfl, by decide⟩
  | number h =>
    obtain ⟨c, cs, hChars, hc⟩ := h.exists_chars
    refine ⟨c, cs, hChars, ?_⟩
    rcases hc with rfl | hDigit
    · decide
    · exact beginsValue_of_isDigit hDigit
  | string s => exact ⟨_, _, rfl, by decide⟩
  | array h => exact ⟨_, _, rfl, by decide⟩
  | object h => exact ⟨_, _, rfl, by decide⟩

/-- No part is spelled by nothing. -/
theorem Spells.length_pos {part : Part} {cs : List Char} (h : Spells part cs) : 0 < cs.length := by
  induction h with
  | bool b => cases b <;> decide
  | number h =>
    obtain ⟨c, cs, hChars, -⟩ := h.exists_chars
    simp [hChars]
  | item _ _ _ ih =>
    simp only [List.length_append]
    omega
  | field =>
    simp only [List.length_append, List.length_cons]
    omega
  | _ => simp [quotedChars]

end Json

/-! ## Reading values -/

section Values

variable {fuel : Nat} {b rest : List Char}

theorem readValue_number {n : Numeral} (h : n.Legible) (hb : AreBlanks b)
    (hRest : EndsNumeral rest) :
    readValue (fuel + 1) (b ++ (n.chars ++ rest)) = (.number n, some rest) := by
  have hRead := readNumeral_chars h hRest
  obtain ⟨c, cs, hChars, hc⟩ := h.exists_chars
  rw [hChars, List.cons_append] at hRead ⊢
  -- No other value begins with a sign or a digit.
  have hOther : BeginsValue c ∧ c ≠ '"' ∧ c ≠ '[' ∧ c ≠ '{' ∧ c ≠ 'n' ∧ c ≠ 't' ∧ c ≠ 'f' := by
    rcases hc with rfl | hDigit
    · decide
    · exact ⟨beginsValue_of_isDigit hDigit, ne_of_isDigit hDigit rfl, ne_of_isDigit hDigit rfl,
        ne_of_isDigit hDigit rfl, ne_of_isDigit hDigit rfl, ne_of_isDigit hDigit rfl,
        ne_of_isDigit hDigit rfl⟩
  obtain ⟨hBegins, hQuote, hBracket, hBrace, hn, ht, hf⟩ := hOther
  -- So the match on the first character ends in its last case.
  unfold readValue
  rw [hBegins.skipBlanks hb]
  split <;> simp_all

theorem readValue_string (s : String) (hb : AreBlanks b) :
    readValue (fuel + 1) (b ++ (Json.quotedChars s ++ rest)) = (.string (some s), some rest) := by
  have hQuote : BeginsValue '"' := by decide
  have hRead := readString_quoted s rest
  rw [Json.quotedChars, List.cons_append, List.append_assoc, readValue, hQuote.skipBlanks hb]
  simp only [List.cons_append, List.nil_append, hRead]

theorem readValue_array {js : List Json} {cs : List Char} (hb : AreBlanks b)
    (h : readItems fuel true (cs ++ rest) = (js, some rest)) :
    readValue (fuel + 1) (b ++ ('[' :: cs ++ rest)) = (.array js true, some rest) := by
  have hBracket : BeginsValue '[' := by decide
  rw [List.cons_append, readValue, hBracket.skipBlanks hb]
  simp only [h, Option.isSome_some]

theorem readValue_object {fs : List (Option String × Json)} {cs : List Char} (hb : AreBlanks b)
    (h : readFields fuel true (cs ++ rest) = (fs, some rest)) :
    readValue (fuel + 1) (b ++ ('{' :: cs ++ rest)) = (.object fs true, some rest) := by
  have hBrace : BeginsValue '{' := by decide
  rw [List.cons_append, readValue, hBrace.skipBlanks hb]
  simp only [h, Option.isSome_some]

theorem readItems_close {first : Bool} (hb : AreBlanks b) :
    readItems (fuel + 1) first (b ++ ']' :: rest) = ([], some rest) := by
  have hSkip : skipBlanks (b ++ ']' :: rest) = ']' :: rest := by
    rw [skipBlanks_append hb, skipBlanks_cons (by decide)]
  rw [readItems, hSkip]
  rfl

theorem readFields_close {first : Bool} (hb : AreBlanks b) :
    readFields (fuel + 1) first (b ++ '}' :: rest) = ([], some rest) := by
  have hSkip : skipBlanks (b ++ '}' :: rest) = '}' :: rest := by
    rw [skipBlanks_append hb, skipBlanks_cons (by decide)]
  rw [readFields, hSkip]
  rfl

/-- Behind the separator stands the next item. -/
theorem nextItem?_separator (first : Bool) (cs : List Char) {close c : Char}
    (hb : AreBlanks b) (hc : BeginsValue c) (hClose : c ≠ close) :
    nextItem? first close (skipBlanks (Json.separator first b ++ c :: cs)) = some (c :: cs) := by
  cases first with
  | true =>
    show some (skipBlanks (b ++ c :: cs)) = _
    rw [hc.skipBlanks hb]
  | false =>
    show nextItem? false close (skipBlanks (',' :: (b ++ c :: cs))) = _
    rw [skipBlanks_cons (by decide)]
    simp [nextItem?, hc.skipBlanks hb, hClose]

/-- No separator and no item begins with a mark that closes. -/
theorem head_separator (first : Bool) (cs : List Char) {close c : Char} (hb : AreBlanks b)
    (hc : BeginsValue c) (hClose : c ≠ close) (hComma : ',' ≠ close) :
    ∃ d ds, skipBlanks (Json.separator first b ++ c :: cs) = d :: ds ∧ d ≠ close := by
  cases first with
  | true => exact ⟨c, cs, hc.skipBlanks hb cs, hClose⟩
  | false => exact ⟨',', _, skipBlanks_cons (by decide) _, hComma⟩

theorem readItems_item {first : Bool} {cs rest' : List Char} {j : Json}
    {js : List Json} {final : Option (List Char)} (hb : AreBlanks b)
    (hBegins : ∃ c cs', cs = c :: cs' ∧ BeginsValue c)
    (h : readValue fuel (cs ++ rest) = (j, some rest'))
    (hRest : readItems fuel false rest' = (js, final)) :
    readItems (fuel + 1) first (Json.separator first b ++ (cs ++ rest)) = (j :: js, final) := by
  obtain ⟨c, cs, rfl, hc⟩ := hBegins
  rw [List.cons_append] at h ⊢
  have hClose : c ≠ ']' := hc.2.2.2.2.1
  obtain ⟨d, ds, hSkip, hd⟩ := head_separator first (cs ++ rest) hb hc hClose (by decide)
  have hNext := nextItem?_separator first (cs ++ rest) hb hc hClose
  rw [hSkip] at hNext
  rw [readItems, hSkip]
  split
  · rename_i hEq
    exact absurd (List.cons.inj hEq).1 hd
  · simp only [hNext, h, hRest]

theorem readFields_field {first : Bool} {b' cs rest' : List Char} {key : String} {j : Json}
    {fs : List (Option String × Json)} {final : Option (List Char)} (hb : AreBlanks b)
    (h : readValue fuel (b' ++ (cs ++ rest)) = (j, some rest'))
    (hRest : readFields fuel false rest' = (fs, final)) :
    readFields (fuel + 1) first (Json.separator first b ++ (Json.quotedChars key ++
      ':' :: (b' ++ (cs ++ rest)))) = ((some key, j) :: fs, final) := by
  have hQuote : BeginsValue '"' := by decide
  have hKey := readString_quoted key (':' :: (b' ++ (cs ++ rest)))
  have hColon := skipBlanks_cons (c := ':') (by decide) (b' ++ (cs ++ rest))
  rw [Json.quotedChars, List.cons_append, List.append_assoc, List.cons_append, List.nil_append]
  -- From here on only the quote in front of the key matters, not the text behind it.
  generalize key.toList.flatMap Json.escapedChar ++ '"' :: ':' :: (b' ++ (cs ++ rest)) = text
    at hKey ⊢
  have hClose : '"' ≠ '}' := by decide
  obtain ⟨d, ds, hSkip, hd⟩ := head_separator first text hb hQuote hClose (by decide)
  have hNext := nextItem?_separator first text hb hQuote hClose
  rw [hSkip] at hNext
  rw [readFields, hSkip]
  split
  · rename_i hEq
    exact absurd (List.cons.inj hEq).1 hd
  · simp only [hNext, hKey, hColon, h, hRest]

end Values

namespace Json

/-! ## What is spelled is read -/

/-- The reader finds the part in the characters, whatever follows them. -/
def Part.ReadIn : Part → List Char → Prop
  | .value j, cs => ∀ fuel b rest, AreBlanks b → EndsNumeral rest → cs.length ≤ fuel →
      readValue (fuel + 1) (b ++ (cs ++ rest)) = (j, some rest)
  | .items first js, cs => ∀ fuel rest, cs.length ≤ fuel →
      readItems (fuel + 1) first (cs ++ rest) = (js, some rest)
  | .fields first fs, cs => ∀ fuel rest, cs.length ≤ fuel →
      readFields (fuel + 1) first (cs ++ rest) = (fs, some rest)

/-- No numeral goes on behind an item. -/
theorem Spells.endsNumeral_items {js : List Json} {cs : List Char}
    (h : Spells (.items false js) cs) (rest : List Char) : EndsNumeral (cs ++ rest) := by
  cases h with
  | noItems hb =>
    rw [List.append_assoc]
    exact endsNumeral_append hb (by decide)
  | item => exact endsNumeral_cons (by decide)

theorem Spells.endsNumeral_fields {fs : List (Option String × Json)} {cs : List Char}
    (h : Spells (.fields false fs) cs) (rest : List Char) : EndsNumeral (cs ++ rest) := by
  cases h with
  | noFields hb =>
    rw [List.append_assoc]
    exact endsNumeral_append hb (by decide)
  | field => exact endsNumeral_cons (by decide)

/-- **What is spelled is read**, by induction on the spelling. -/
theorem readIn_of_spells {part : Part} {cs : List Char} (h : Spells part cs) :
    part.ReadIn cs := by
  -- Each part inside another one is shorter, so the fuel for the whole is enough for it.
  induction h with
  | null =>
    intro fuel b rest hb _ _
    have hBegins : BeginsValue 'n' := by decide
    rw [List.cons_append, readValue, hBegins.skipBlanks hb]
    rfl
  | bool value =>
    intro fuel b rest hb _ _
    have hTrue : BeginsValue 't' := by decide
    have hFalse : BeginsValue 'f' := by decide
    cases value with
    | true =>
      show readValue _ (b ++ 't' :: _) = _
      rw [readValue, hTrue.skipBlanks hb]
      rfl
    | false =>
      show readValue _ (b ++ 'f' :: _) = _
      rw [readValue, hFalse.skipBlanks hb]
      rfl
  | number h =>
    intro fuel b rest hb hRest _
    exact readValue_number h hb hRest
  | string s =>
    intro fuel b rest hb _ _
    exact readValue_string s hb
  | array _ ih =>
    intro fuel b rest hb _ hFuel
    rw [List.length_cons] at hFuel
    obtain ⟨fuel, rfl⟩ := Nat.exists_eq_add_one_of_ne_zero (show fuel ≠ 0 by omega)
    exact readValue_array hb (ih fuel rest (by omega))
  | object _ ih =>
    intro fuel b rest hb _ hFuel
    rw [List.length_cons] at hFuel
    obtain ⟨fuel, rfl⟩ := Nat.exists_eq_add_one_of_ne_zero (show fuel ≠ 0 by omega)
    exact readValue_object hb (ih fuel rest (by omega))
  | noItems hb =>
    intro fuel rest _
    rw [List.append_assoc]
    exact readItems_close hb
  | noFields hb =>
    intro fuel rest _
    rw [List.append_assoc]
    exact readFields_close hb
  | @item first b cs tail j js hb h hTail ih ihTail =>
    intro fuel rest hFuel
    have hPositive : 0 < cs.length := h.length_pos
    have hPositive' : 0 < tail.length := hTail.length_pos
    rw [List.length_append, List.length_append] at hFuel
    obtain ⟨fuel, rfl⟩ := Nat.exists_eq_add_one_of_ne_zero (show fuel ≠ 0 by omega)
    have hItem := ih fuel [] (tail ++ rest) areBlanks_nil (hTail.endsNumeral_items rest) (by omega)
    have hItems := ihTail fuel rest (by omega)
    rw [List.append_assoc, List.append_assoc]
    exact readItems_item hb h.exists_begins hItem hItems
  | @field first b b' cs tail key j fs hb hb' h hTail ih ihTail =>
    intro fuel rest hFuel
    simp only [List.length_append, List.length_cons] at hFuel
    obtain ⟨fuel, rfl⟩ := Nat.exists_eq_add_one_of_ne_zero (show fuel ≠ 0 by omega)
    have hValue := ih fuel b' (tail ++ rest) hb' (hTail.endsNumeral_fields rest) (by omega)
    have hFields := ihTail fuel rest (by omega)
    simp only [List.append_assoc, List.cons_append]
    exact readFields_field hb hValue hFields

/-! ## The two layouts -/

mutual

/-- Every text, numeral, list and object of the document is whole. -/
def Legible : Json → Prop
  | .null => True
  | .bool _ => True
  | .number n => n.Legible
  | .string content => content.isSome = true
  | .array items closed => AllLegible items ∧ closed = true
  | .object fields closed => FieldsLegible fields ∧ closed = true
  | .broken => False

/-- All items are legible. -/
def AllLegible : List Json → Prop
  | [] => True
  | item :: rest => item.Legible ∧ AllLegible rest

/-- All keys and values are legible. -/
def FieldsLegible : List (Option String × Json) → Prop
  | [] => True
  | (key, value) :: rest => key.isSome = true ∧ value.Legible ∧ FieldsLegible rest

end

theorem toList_keyText (s : String) : (keyText (some s)).toList = quotedChars s :=
  String.toList_ofList

theorem areBlanks_newLine (depth : Nat) : AreBlanks (newLine depth).toList := by
  intro c hc
  rw [newLine, String.toList_append, List.mem_append] at hc
  rcases hc with hc | hc
  · exact Or.inr (Or.inl (List.mem_singleton.mp hc))
  · rw [String.toList_ofList] at hc
    exact Or.inl (List.eq_of_mem_replicate hc)

theorem areBlanks_blank : AreBlanks [' '] := fun _ hc => Or.inl (List.mem_singleton.mp hc)

theorem separator_append (first : Bool) (b cs : List Char) :
    separator first [] ++ (b ++ cs) = separator first b ++ cs := by
  cases first <;> rfl

mutual

/-- The layout without blanks is a text of the document. -/
theorem spells_compact : ∀ j : Json, j.Legible → Spells (.value j) j.compact.toList
  | .null, _ => .null
  | .bool b, _ => by
    rw [compact, apply_ite String.toList]
    exact .bool b
  | .number n, h => by
    rw [compact, Numeral.text, String.toList_ofList]
    exact .number h
  | .string (some s), _ => by
    rw [compact, toList_keyText]
    exact .string s
  -- A string with a broken escape has no text, and no legible document holds one.
  | .string none, h => absurd h (by simp [Legible])
  | .array [] closed, h => by
    obtain ⟨-, rfl⟩ := h
    exact .array (.noItems areBlanks_nil)
  | .array (item :: rest) closed, h => by
    obtain ⟨hItems, rfl⟩ := h
    rw [compact, String.toList_append, String.toList_append]
    exact .array (spells_compactItems true (item :: rest) hItems (List.cons_ne_nil _ _))
  | .object [] closed, h => by
    obtain ⟨-, rfl⟩ := h
    exact .object (.noFields areBlanks_nil)
  | .object (field :: rest) closed, h => by
    obtain ⟨hFields, rfl⟩ := h
    rw [compact, String.toList_append, String.toList_append]
    exact .object (spells_compactFields true (field :: rest) hFields (List.cons_ne_nil _ _))
  | .broken, h => h.elim

theorem spells_compactItems (first : Bool) : ∀ items : List Json, AllLegible items →
    items ≠ [] → Spells (.items first items)
      (separator first [] ++ ((compactItems items).toList ++ [']']))
  | [], _, h => absurd rfl h
  | [item], h, _ => .item areBlanks_nil (spells_compact item h.1) (.noItems areBlanks_nil)
  | item :: next :: rest, h, _ => by
    have hRest := spells_compactItems false (next :: rest) h.2 (List.cons_ne_nil _ _)
    rw [compactItems, String.toList_append, String.toList_append, List.append_assoc,
      List.append_assoc]
    · exact .item areBlanks_nil (spells_compact item h.1) hRest
    · simp

theorem spells_compactFields (first : Bool) : ∀ fields : List (Option String × Json),
    FieldsLegible fields → fields ≠ [] → Spells (.fields first fields)
      (separator first [] ++ ((compactFields fields).toList ++ ['}']))
  | [], _, h => absurd rfl h
  | [(some key, value)], h, _ => by
    rw [compactFields, String.toList_append, String.toList_append, toList_keyText,
      List.append_assoc, List.append_assoc]
    exact .field areBlanks_nil areBlanks_nil (spells_compact value h.2.1)
      (.noFields areBlanks_nil)
  | (some key, value) :: next :: rest, h, _ => by
    have hRest := spells_compactFields false (next :: rest) h.2.2 (List.cons_ne_nil _ _)
    rw [compactFields]
    · simp only [String.toList_append, toList_keyText, List.append_assoc]
      exact .field areBlanks_nil areBlanks_nil (spells_compact value h.2.1) hRest
    · simp
  | (none, value) :: _, h, _ => absurd h.1 (by simp)

end

mutual

/-- The layout with a line for each item is a text of the document. -/
theorem spells_pretty (depth : Nat) :
    ∀ j : Json, j.Legible → Spells (.value j) (j.pretty depth).toList
  | .null, _ => by
    rw [pretty]
    exact .null
  | .bool b, _ => by
    rw [pretty, apply_ite String.toList]
    exact .bool b
  | .number n, h => by
    rw [pretty, Numeral.text, String.toList_ofList]
    exact .number h
  | .string (some s), _ => by
    rw [pretty, toList_keyText]
    exact .string s
  | .string none, h => absurd h (by simp [Legible])
  | .array [] closed, h => by
    obtain ⟨-, rfl⟩ := h
    rw [pretty]
    exact .array (.noItems areBlanks_nil)
  | .array (item :: rest) closed, h => by
    obtain ⟨hItems, rfl⟩ := h
    have hRest := spells_prettyItems depth true (item :: rest) hItems (List.cons_ne_nil _ _)
    simp only [pretty, String.toList_append, List.append_assoc]
    exact .array hRest
  | .object [] closed, h => by
    obtain ⟨-, rfl⟩ := h
    rw [pretty]
    exact .object (.noFields areBlanks_nil)
  | .object (field :: rest) closed, h => by
    obtain ⟨hFields, rfl⟩ := h
    have hRest := spells_prettyFields depth true (field :: rest) hFields (List.cons_ne_nil _ _)
    simp only [pretty, String.toList_append, List.append_assoc]
    exact .object hRest
  | .broken, h => h.elim

theorem spells_prettyItems (depth : Nat) (first : Bool) : ∀ items : List Json,
    AllLegible items → items ≠ [] → Spells (.items first items)
      (separator first [] ++ ((prettyItems (depth + 1) items).toList ++
        ((newLine depth).toList ++ [']'])))
  | [], _, h => absurd rfl h
  | [item], h, _ => by
    have hItem := spells_pretty (depth + 1) item h.1
    rw [prettyItems, String.toList_append, List.append_assoc, separator_append]
    exact .item (areBlanks_newLine (depth + 1)) hItem (.noItems (areBlanks_newLine depth))
  | item :: next :: rest, h, _ => by
    have hItem := spells_pretty (depth + 1) item h.1
    have hRest := spells_prettyItems depth false (next :: rest) h.2 (List.cons_ne_nil _ _)
    rw [prettyItems]
    · simp only [String.toList_append, List.append_assoc, separator_append]
      exact .item (areBlanks_newLine (depth + 1)) hItem hRest
    · simp

theorem spells_prettyFields (depth : Nat) (first : Bool) :
    ∀ fields : List (Option String × Json), FieldsLegible fields → fields ≠ [] →
      Spells (.fields first fields)
        (separator first [] ++ ((prettyFields (depth + 1) fields).toList ++
          ((newLine depth).toList ++ ['}'])))
  | [], _, h => absurd rfl h
  | [(some key, value)], h, _ => by
    have hValue := spells_pretty (depth + 1) value h.2.1
    simp only [prettyFields, String.toList_append, toList_keyText, List.append_assoc,
      separator_append]
    exact .field (areBlanks_newLine (depth + 1)) areBlanks_blank hValue
      (.noFields (areBlanks_newLine depth))
  -- A field that is not the last ends with a separator instead of the closing brace.
  | (some key, value) :: next :: rest, h, _ => by
    have hValue := spells_pretty (depth + 1) value h.2.1
    have hRest := spells_prettyFields depth false (next :: rest) h.2.2 (List.cons_ne_nil _ _)
    rw [prettyFields]
    · simp only [String.toList_append, toList_keyText, List.append_assoc, separator_append]
      exact .field (areBlanks_newLine (depth + 1)) areBlanks_blank hValue hRest
    · simp
  | (none, value) :: _, h, _ => absurd h.1 (by simp)

end

end Json

/-- What spells a value is its document. -/
theorem readDocument_of_spells {j : Json} {text : String}
    (h : Json.Spells (.value j) text.toList) : readDocument text = ⟨j, true⟩ := by
  have hRead := Json.readIn_of_spells h text.toList.length [] [] areBlanks_nil endsNumeral_nil
    (Nat.le_refl _)
  rw [List.append_nil, List.nil_append] at hRead
  rw [readDocument]
  simp only [hRead]
  rfl

/-- **The layout without blanks is read back.** -/
theorem readDocument_compact {j : Json} (h : j.Legible) :
    readDocument j.compact = ⟨j, true⟩ :=
  readDocument_of_spells (Json.spells_compact j h)

/-- **The layout with a line for each item is read back.** -/
theorem readDocument_pretty {j : Json} (h : j.Legible) :
    readDocument (j.pretty 0) = ⟨j, true⟩ :=
  readDocument_of_spells (Json.spells_pretty 0 j h)

end ArrayEquations
