import ArrayEquations.Proofs.WrittenSyntax

/-!
# ArrayEquations — reading symbols

Readers of the smallest parts of a written formula: names, rows of indices, the names
that a symbol depends on, and numerals. Each takes its part off the front of a text and
leaves the rest, provided that the rest stands apart from the part.

## Main definitions

* `expect`, `between` — reading what has to be there.
* `readReference` — reads a symbol with its indices.
* `Apart` — the rest of a text cannot be taken for more of a symbol or a number.

## Main results

* `readReference_latex` — a symbol is read back from its text.
-/

namespace ArrayEquations

namespace Written

/-- Takes something off the front of a text. -/
abbrev Reader (α : Type) := List Char → Option (α × List Char)

/-- What is left of a text that has to begin with another one. -/
def expect : List Char → List Char → Option (List Char)
  | [], cs => some cs
  | _ :: _, [] => none
  | p :: ps, c :: cs => if p = c then expect ps cs else none

@[simp] theorem expect_append (ps cs : List Char) : expect ps (ps ++ cs) = some cs := by
  induction ps with
  | nil => rfl
  | cons p ps ih => rw [List.cons_append, expect, if_pos rfl, ih]

/-- Reads something between two texts. -/
def between {α : Type} (opening closing : String) (read : Reader α) : Reader α := fun cs => do
  let cs ← expect opening.toList cs
  let (a, cs) ← read cs
  let cs ← expect closing.toList cs
  return (a, cs)

theorem between_append {α : Type} {opening closing : String} {read : Reader α} {a : α}
    {cs rest : List Char}
    (h : read (cs ++ (closing.toList ++ rest)) = some (a, closing.toList ++ rest)) :
    between opening closing read (opening.toList ++ (cs ++ (closing.toList ++ rest))) =
      some (a, rest) := by
  simp [between, h]

/-! ## Rows of indices -/

/-- Reads a row of indices from its end on: primes are counted until their letter comes. -/
def readIndex (c : Char) : Nat × List Index → Nat × List Index
  | (primes, is) => if c = '\'' then (primes + 1, is) else (0, ⟨c, primes⟩ :: is)

/-- Reads a row of indices up to a closing brace. -/
def readRow (cs : List Char) : List Index × List Char :=
  (((cs.takeWhile (· != '\x7d')).foldr readIndex (0, [])).2, (cs.dropWhile (· != '\x7d')).tail)

theorem foldr_readIndex_text {i : Index} (hi : i.letter ≠ '\'') (is : List Index) :
    i.text.toList.foldr readIndex (0, is) = (0, i :: is) := by
  have hPrimes : ∀ n, (List.replicate n '\'').foldr readIndex (0, is) = (n, is) := by
    intro n
    induction n with
    | zero => rfl
    | succ n ih =>
      rw [List.replicate_succ, List.foldr_cons, ih]
      rfl
  rw [Index.text, String.toList_ofList, List.foldr_cons, hPrimes, readIndex, if_neg hi]

theorem foldr_readIndex_rowText {is : List Index} (h : LegibleIndices is) :
    (Index.rowText is).toList.foldr readIndex (0, []) = (0, is) := by
  induction is with
  | nil => rfl
  | cons i is ih =>
    have hPrime : i.letter ≠ '\'' := by
      intro hEq
      have hLetter := h i (by simp)
      rw [hEq] at hLetter
      exact absurd hLetter (by decide)
    rw [Index.rowText, List.map_cons, String.join_cons, String.toList_append, List.foldr_append]
    rw [Index.rowText] at ih
    rw [ih fun j hj => h j (List.mem_cons_of_mem _ hj), foldr_readIndex_text hPrime]

theorem ne_brace_of_mem_rowText {is : List Index} (h : LegibleIndices is) :
    ∀ c ∈ (Index.rowText is).toList, (c != '\x7d') = true := by
  intro c hc
  rw [Index.rowText, String.toList_join, List.mem_flatMap] at hc
  obtain ⟨text, hText, hc⟩ := hc
  obtain ⟨i, hi, rfl⟩ := List.mem_map.mp hText
  rw [Index.text, String.toList_ofList] at hc
  rcases List.mem_cons.mp hc with rfl | hc
  · rw [bne_iff_ne]
    intro hEq
    have hLetter := h i hi
    rw [hEq] at hLetter
    exact absurd hLetter (by decide)
  · rw [List.eq_of_mem_replicate hc]
    decide

/-- A row of indices is read back from its text. -/
theorem readRow_rowText {is : List Index} (h : LegibleIndices is) (rest : List Char) :
    readRow ((Index.rowText is).toList ++ '\x7d' :: rest) = (is, rest) := by
  obtain ⟨hTake, hDrop⟩ := @takeWhile_append_rest (· != '\x7d') _ ('\x7d' :: rest)
    (ne_brace_of_mem_rowText h) (by simp)
  rw [readRow, hTake, hDrop, foldr_readIndex_rowText h]
  rfl

/-! ## Names -/

/-- Reads names from their end on: a comma and the blank behind it end a name. -/
def readName (c : Char) : List Char × List String → List Char × List String
  | (name, names) =>
    if c = ',' then ([], String.ofList name.tail :: names) else (c :: name, names)

/-- Reads names with commas between them up to a closing bracket. -/
def readNames (cs : List Char) : List String × List Char :=
  let (name, names) := (cs.takeWhile (· != ')')).foldr readName ([], [])
  (String.ofList name :: names, (cs.dropWhile (· != ')')).tail)

theorem mem_legibleName {name : String} (h : LegibleName name) {c : Char}
    (hc : c ∈ name.toList) : c.isAlphanum ∨ c = '\\' ∨ c = ' ' := by
  obtain ⟨d, ds, hd, hds, hName⟩ := h
  have hMem : ∀ e ∈ d :: ds, e.isAlphanum := by
    intro e he
    rcases List.mem_cons.mp he with rfl | he
    · rw [Char.isAlphanum, hd, Bool.true_or]
    · exact hds e he
  rcases hName with hName | hName
  · exact Or.inl (hMem c (hName ▸ hc))
  · rw [hName, List.mem_append] at hc
    rcases hc with hc | hc
    · have hAll : "\\delta ".toList.all
          (fun c => c.isAlphanum || (c == '\\' || c == ' ')) = true := by decide
      simpa using List.all_eq_true.mp hAll c hc
    · exact Or.inl (hMem c hc)

theorem ne_of_mem_legibleName {name : String} (h : LegibleName name) {c : Char}
    (hc : c ∈ name.toList) : c ≠ ',' ∧ c ≠ ')' := by
  constructor
  · rintro rfl
    exact absurd (mem_legibleName h hc) (by decide)
  · rintro rfl
    exact absurd (mem_legibleName h hc) (by decide)

theorem foldr_readName {cs : List Char} (h : ∀ c ∈ cs, c ≠ ',') (name : List Char)
    (names : List String) : cs.foldr readName (name, names) = (cs ++ name, names) := by
  induction cs with
  | nil => rfl
  | cons c cs ih =>
    rw [List.forall_mem_cons] at h
    rw [List.foldr_cons, ih h.2, readName, if_neg h.1]
    rfl

theorem foldr_readName_intercalate {d : String} {ds : List String}
    (h : ∀ e ∈ d :: ds, LegibleName e) :
    (String.intercalate ", " (d :: ds)).toList.foldr readName ([], []) = (d.toList, ds) := by
  induction ds generalizing d with
  | nil =>
    rw [String.intercalate_singleton, foldr_readName, List.append_nil]
    exact fun c hc => (ne_of_mem_legibleName (h d (by simp)) hc).1
  | cons e ds ih =>
    have hRest := ih fun f hf => h f (List.mem_cons_of_mem _ hf)
    have hComma : ", ".toList.foldr readName (e.toList, ds) = ([], e :: ds) := by
      show ([], String.ofList e.toList :: ds) = _
      rw [String.ofList_toList]
    rw [String.intercalate_cons_cons, String.toList_append, String.toList_append,
      List.foldr_append, List.foldr_append, hRest, hComma, foldr_readName, List.append_nil]
    exact fun c hc => (ne_of_mem_legibleName (h d (by simp)) hc).1

theorem ne_bracket_of_mem_intercalate {ds : List String} (h : ∀ e ∈ ds, LegibleName e) :
    ∀ c ∈ (String.intercalate ", " ds).toList, (c != ')') = true := by
  induction ds with
  | nil => simp
  | cons d ds ih =>
    rw [List.forall_mem_cons] at h
    intro c hc
    cases ds with
    | nil =>
      rw [String.intercalate_singleton] at hc
      exact bne_iff_ne.mpr (ne_of_mem_legibleName h.1 hc).2
    | cons e ds =>
      rw [String.intercalate_cons_cons, String.toList_append, String.toList_append,
        List.mem_append, List.mem_append] at hc
      rcases hc with (hc | hc) | hc
      · exact bne_iff_ne.mpr (ne_of_mem_legibleName h.1 hc).2
      · exact List.all_eq_true.mp (by decide : ", ".toList.all (· != ')') = true) c hc
      · exact ih h.2 c hc

/-- Names are read back from their text. -/
theorem readNames_intercalate {ds : List String} (hds : ds ≠ []) (h : ∀ e ∈ ds, LegibleName e)
    (rest : List Char) :
    readNames ((String.intercalate ", " ds).toList ++ ')' :: rest) = (ds, rest) := by
  obtain ⟨hTake, hDrop⟩ := @takeWhile_append_rest (· != ')') _ (')' :: rest)
    (ne_bracket_of_mem_intercalate h) (by simp)
  obtain ⟨d, ds, rfl⟩ := List.exists_cons_of_ne_nil hds
  rw [readNames, hTake, hDrop, foldr_readName_intercalate h]
  simp

/-! ## Symbols -/

/-- The rest of a text cannot be taken for more of what stands before it. -/
def Apart (before rest : List Char) : Prop :=
  ∀ c ∈ rest.head?, c ≠ '_' ∧ c ≠ '(' ∧
    (∀ b ∈ before.getLast?, b.isAlphanum → c.isAlphanum = false ∧ c ≠ '.')

/-- Reads the indices of a symbol, if there are any. -/
def readSubscript : List Char → List Index × List Char
  | '_' :: '\x7b' :: cs => readRow cs
  | cs => ([], cs)

/-- Reads the names that a symbol depends on, if there are any. -/
def readDependencies : List Char → List String × List Char
  | '(' :: cs => readNames cs
  | cs => ([], cs)

/-- Reads a symbol with its indices, given what stands in front of its letters. -/
def readReference (front : String) (cs : List Char) : Reference × List Char :=
  let name := cs.takeWhile Char.isAlphanum
  let (indices, cs) := readSubscript (cs.dropWhile Char.isAlphanum)
  let (dependencies, cs) := readDependencies cs
  (⟨⟨front ++ String.ofList name, dependencies⟩, indices⟩, cs)

theorem readDependencies_text {s : Symbol} (h : ∀ d ∈ s.dependencies, LegibleName d)
    {rest : List Char} (hRest : ∀ c ∈ rest.head?, c ≠ '(') :
    readDependencies (s.dependenciesText.toList ++ rest) = (s.dependencies, rest) := by
  unfold Symbol.dependenciesText
  split
  · rename_i hNone
    rw [List.isEmpty_iff.mp hNone]
    cases rest with
    | nil => rfl
    | cons c rest =>
      -- Without dependencies there is no bracket, so that the reader takes nothing.
      have hc : c ≠ '(' := hRest c rfl
      show readDependencies (c :: rest) = _
      unfold readDependencies
      split
      · rename_i hEq
        exact absurd (List.cons.inj hEq).1 hc
      · rfl
  · rename_i hSome
    rw [String.toList_append, String.toList_append, List.append_assoc, List.append_assoc]
    show readNames _ = _
    exact readNames_intercalate (fun hNil => hSome (by rw [hNil]; rfl)) h rest

/-- The indices of a symbol as they are written below it. -/
def subscriptText (is : List Index) : String :=
  if is.isEmpty then "" else "_" ++ braced (Index.rowText is)

theorem readSubscript_text {is : List Index} (h : LegibleIndices is) {rest : List Char}
    (hRest : ∀ c ∈ rest.head?, c ≠ '_') :
    readSubscript ((subscriptText is).toList ++ rest) = (is, rest) := by
  unfold subscriptText
  split
  · rename_i hNone
    rw [List.isEmpty_iff] at hNone
    subst hNone
    show readSubscript rest = _
    unfold readSubscript
    split
    · exact absurd rfl (hRest '_' rfl)
    · rfl
  · rw [String.toList_append, toList_braced]
    show readSubscript ('_' :: '\x7b' :: (((Index.rowText is).toList ++ ['\x7d']) ++ rest)) = _
    rw [List.append_assoc, readSubscript]
    exact readRow_rowText h rest

theorem eq_or_mem_head_dependencies {s : Symbol} {rest : List Char} {c : Char}
    (hc : c ∈ (s.dependenciesText.toList ++ rest).head?) :
    c = '(' ∨ s.dependenciesText = "" ∧ c ∈ rest.head? := by
  unfold Symbol.dependenciesText at hc ⊢
  split at hc
  · rename_i hNone
    exact Or.inr ⟨if_pos hNone, hc⟩
  · rw [String.toList_append, String.toList_append, List.append_assoc] at hc
    exact Or.inl (Option.some.inj hc).symm

theorem eq_or_mem_head_subscript {is : List Index} {rest : List Char} {c : Char}
    (hc : c ∈ ((subscriptText is).toList ++ rest).head?) :
    c = '_' ∨ subscriptText is = "" ∧ c ∈ rest.head? := by
  unfold subscriptText at hc ⊢
  split at hc
  · rename_i hNone
    exact Or.inr ⟨if_pos hNone, hc⟩
  · rw [String.toList_append] at hc
    exact Or.inl (Option.some.inj hc).symm

/-- **A symbol is read back from its text.** -/
theorem readReference_latex {r : Reference} (h : r.Legible) {front : String} {cs : List Char}
    (hNonempty : cs ≠ []) (hcs : ∀ c ∈ cs, c.isAlphanum)
    (hName : r.symbol.name = front ++ String.ofList cs) {rest : List Char}
    (hRest : Apart r.latex.toList rest) :
    readReference front (cs ++ ((subscriptText r.indices).toList ++
      (r.symbol.dependenciesText.toList ++ rest))) = (r, rest) := by
  have hText : r.latex = r.symbol.name ++ subscriptText r.indices ++ r.symbol.dependenciesText :=
    rfl
  have hBehindName : ∀ c ∈ ((subscriptText r.indices).toList ++
      (r.symbol.dependenciesText.toList ++ rest)).head?, c.isAlphanum = false := by
    intro c hc
    obtain rfl | ⟨hSubscript, hc⟩ := eq_or_mem_head_subscript hc
    · decide
    obtain rfl | ⟨hDependencies, hc⟩ := eq_or_mem_head_dependencies hc
    · decide
    -- The text of the symbol ends with its name.
    have hLast : r.latex.toList.getLast? = cs.getLast? := by
      rw [hText, hSubscript, hDependencies, hName, String.append_empty, String.append_empty,
        String.toList_append, String.toList_ofList, List.getLast?_append_of_ne_nil _ hNonempty]
    have hMem := List.getLast?_eq_some_getLast hNonempty
    exact ((hRest c hc).2.2 _ (hLast.trans hMem) (hcs _ (List.getLast_mem hNonempty))).1
  have hBehindSubscript : ∀ c ∈ (r.symbol.dependenciesText.toList ++ rest).head?, c ≠ '_' := by
    intro c hc
    obtain rfl | ⟨-, hc⟩ := eq_or_mem_head_dependencies hc
    · decide
    · exact (hRest c hc).1
  obtain ⟨hTake, hDrop⟩ := takeWhile_append_rest hcs hBehindName
  rw [readReference, hTake, hDrop]
  simp only
  rw [readSubscript_text h.indices hBehindSubscript]
  simp only
  rw [readDependencies_text h.dependencies fun c hc => (hRest c hc).2.1]
  simp only [← hName]

/-! ## Numerals -/

/-- Reads digits and points. -/
def readNumeral (cs : List Char) : String × List Char :=
  (String.ofList (cs.takeWhile fun c => c.isDigit || c == '.'),
    cs.dropWhile fun c => c.isDigit || c == '.')

/-- A numeral is read back from its text. -/
theorem readNumeral_text {digits : String} (h : IsNumeral digits) {rest : List Char}
    (hRest : Apart digits.toList rest) : readNumeral (digits.toList ++ rest) = (digits, rest) := by
  have hChars : ∀ c ∈ digits.toList, (c.isDigit || c == '.') = true := by
    intro c hc
    simpa using h.chars c hc
  have hBehind : ∀ c ∈ rest.head?, (c.isDigit || c == '.') = false := by
    intro c hc
    obtain ⟨d, hLast, hd⟩ := h.last
    have hAlphanum : d.isAlphanum := by rw [Char.isAlphanum, hd, Bool.or_true]
    obtain ⟨hNot, hPoint⟩ := (hRest c hc).2.2 d hLast hAlphanum
    rw [Char.isAlphanum, Bool.or_eq_false_iff] at hNot
    rw [hNot.2, Bool.false_or]
    exact beq_false_of_ne hPoint
  obtain ⟨hTake, hDrop⟩ := takeWhile_append_rest hChars hBehind
  rw [readNumeral, hTake, hDrop, String.ofList_toList]

end Written

end ArrayEquations
