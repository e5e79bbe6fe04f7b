import ArrayEquations.Proofs.ReadSymbol
import ArrayEquations.Proofs.WrittenFormula

/-!
# ArrayEquations — reading formulas

A reader of written formulas. It goes over a text once, from left to right: a sign, then
factors as long as there are any, then the next sign. It reads every legible form back
from its text, so two forms with one text are the same, and two formulas with one text
have the same value.

## Main definitions

* `Written.readFormula` — the reader.

## Main results

* `Written.readFormula_text` — a form is read back from its text.
* `Expr.value_eq_of_latex_eq` — the text of a formula determines its value.
-/

namespace ArrayEquations

namespace Written

/-! ## The reader -/

/-- Where the next factor starts, if there is one. -/
def nextFactor? : List Char → Option (List Char)
  | '\\' :: ',' :: cs => some cs
  | ' ' :: c :: cs => if c.isAlpha then some (c :: cs) else none
  | cs => if beginsFactor cs then some cs else none

/-- The sign of the next summand and where it starts, if there is one. -/
def nextSummand? : List Char → Option (Bool × List Char)
  | ' ' :: '+' :: ' ' :: cs => some (false, cs)
  | ' ' :: '-' :: ' ' :: cs => some (true, cs)
  | _ => none

/-- Reads a comparison sign between blanks. -/
def readComparison (cs : List Char) : Option (Comparison × List Char) :=
  [.lt, .le, .gt, .ge, .eq, .ne].findSome? fun c : Comparison =>
    (expect (" " ++ c.latex ++ " ").toList cs).map (c, ·)

/-- The function whose name is a command of its own. -/
def function? (name : String) : Option NamedFunction :=
  [.exp, .log, .sin, .cos, .tanh].find? (·.name == name)

/-- Reads a power or a quotient from behind its first brace. -/
def readBraces (formula : Reader Formula) : Reader Factor := fun cs => do
  let (lhs, cs) ← formula cs
  match cs with
  | '\x7d' :: cs => do
    let (exponent, cs) ← between "^\x7b" "\x7d" formula cs
    return (.power lhs exponent, cs)
  | cs => do
    let (rhs, cs) ← between " \\over " "\x7d" formula cs
    return (.quotient lhs rhs, cs)

/-- Reads what stands behind a command. -/
def readCommand (formula : Reader Formula) (product : Reader Product) (name : String) :
    Reader Factor := fun cs =>
  match name with
  | "left" => do
    let (e, cs) ← between "(" "\\right)" formula cs
    return (.group e, cs)
  | "sqrt" => do
    let (e, cs) ← between "\x7b" "\x7d" formula cs
    return (.call .sqrt e, cs)
  | "mathrm" => do
    let (e, cs) ← between "\x7brelu\x7d\\left(" "\\right)" formula cs
    return (.call .relu e, cs)
  | "mathbb" => do
    let cs ← expect "\x7b1\x7d_\x7b".toList cs
    let (lhs, cs) ← formula cs
    let (c, cs) ← readComparison cs
    let (rhs, cs) ← formula cs
    let cs ← expect "\x7d".toList cs
    return (.indicator c lhs rhs, cs)
  | "sum" => do
    let cs ← expect "_\x7b".toList cs
    let (indices, cs) := readRow cs
    let (body, cs) ← product cs
    return (.sum indices body, cs)
  | "delta" => do
    let cs ← expect " ".toList cs
    let (r, cs) := readReference "\\delta " cs
    return (.symbol r, cs)
  | name => do
    let f ← function? name
    let (e, cs) ← between "\\left(" "\\right)" formula cs
    return (.call f e, cs)

/-- Reads a factor, given readers of formulas and of products. -/
def readFactor (formula : Reader Formula) (product : Reader Product) : Reader Factor
  | [] => none
  | '\x7b' :: cs => readBraces formula cs
  | '\\' :: cs =>
    readCommand formula product (String.ofList (cs.takeWhile Char.isAlpha))
      (cs.dropWhile Char.isAlpha)
  | c :: cs =>
    if c.isDigit then
      let (digits, rest) := readNumeral (c :: cs)
      some (.numeral digits, rest)
    else
      let (r, rest) := readReference "" (c :: cs)
      some (.symbol r, rest)

mutual

/-- Reads factors side by side. The fuel bounds how deep they are nested. -/
def readProduct : Nat → Reader Product
  | 0, _ => none
  | fuel + 1, cs => do
    let (f, cs) ← readFactor (readFormula fuel) (readProduct fuel) cs
    match nextFactor? cs with
    | none => return (.last f, cs)
    | some cs => do
      let (rest, cs) ← readProduct fuel cs
      return (.times f rest, cs)

/-- Reads summands in a row, from behind the sign of the first. -/
def readSummands : Nat → Bool → Reader Formula
  | 0, _, _ => none
  | fuel + 1, negative, cs => do
    let (p, cs) ← readProduct fuel cs
    match nextSummand? cs with
    | none => return (.last negative p, cs)
    | some (minus, cs) => do
      let (rest, cs) ← readSummands fuel minus cs
      return (.plus negative p rest, cs)

/-- Reads a formula. -/
def readFormula : Nat → Reader Formula
  | 0, _ => none
  | fuel + 1, '-' :: cs => readSummands fuel true cs
  | fuel + 1, cs => readSummands fuel false cs

end

/-! ## Sizes -/

mutual

/-- The fuel with which the parts of a factor are read. -/
def Factor.size : Factor → Nat
  | .symbol _ | .numeral _ => 1
  | .group e => e.size + 2
  | .quotient lhs rhs => lhs.size + rhs.size + 2
  | .power base exponent => base.size + exponent.size + 2
  | .call _ argument => argument.size + 2
  | .indicator _ lhs rhs => lhs.size + rhs.size + 2
  | .sum _ body => body.size + 1

/-- The fuel with which a product is read. -/
def Product.size : Product → Nat
  | .last f => f.size + 1
  | .times f rest => f.size + rest.size + 1

/-- The fuel with which summands are read. -/
def Formula.size : Formula → Nat
  | .last _ p => p.size + 1
  | .plus _ p rest => p.size + rest.size + 1

end

/-! ## Where parts end -/

/-- No symbol or number goes on here. -/
def standsApart : List Char → Bool
  | c :: _ => !c.isAlphanum && c != '_' && c != '(' && c != '.'
  | [] => true

theorem apart_of_standsApart {rest : List Char} (h : standsApart rest = true)
    (before : List Char) : Apart before rest := by
  intro c hc
  cases rest with
  | nil => exact absurd hc (by simp)
  | cons d rest =>
    obtain rfl := Option.some.inj hc
    simp only [standsApart, Bool.and_eq_true, Bool.not_eq_true', bne_iff_ne] at h
    obtain ⟨⟨⟨hAlphanum, hBelow⟩, hBracket⟩, hPoint⟩ := h
    exact ⟨hBelow, hBracket, fun _ _ _ => ⟨hAlphanum, hPoint⟩⟩

/-- No product goes on here. -/
structure EndsProduct (rest : List Char) : Prop where
  apart : standsApart rest = true
  factor : nextFactor? rest = none

/-- No formula goes on here. -/
structure EndsFormula (rest : List Char) : Prop extends EndsProduct rest where
  summand : nextSummand? rest = none

theorem endsFormula_nil : EndsFormula [] := ⟨⟨rfl, rfl⟩, rfl⟩

theorem endsFormula_bracket (rest : List Char) : EndsFormula ("\\right)".toList ++ rest) :=
  ⟨⟨rfl, rfl⟩, rfl⟩

theorem endsFormula_brace (rest : List Char) : EndsFormula ("\x7d".toList ++ rest) :=
  ⟨⟨rfl, rfl⟩, rfl⟩

theorem endsFormula_over (rest : List Char) : EndsFormula (" \\over ".toList ++ rest) :=
  ⟨⟨rfl, rfl⟩, rfl⟩

theorem endsFormula_comparison (c : Comparison) (rest : List Char) :
    EndsFormula ((" " ++ c.latex ++ " ").toList ++ rest) := by
  cases c <;> exact ⟨⟨rfl, rfl⟩, rfl⟩

theorem endsProduct_operator (negative : Bool) (rest : List Char) :
    EndsProduct ((operatorText negative).toList ++ rest) := by
  cases negative <;> exact ⟨rfl, rfl⟩

theorem nextSummand?_operator (negative : Bool) (rest : List Char) :
    nextSummand? ((operatorText negative).toList ++ rest) = some (negative, rest) := by
  cases negative <;> rfl

/-- Letters and digits are such in the wider sense too. -/
theorem isAlphanumeric_of_isAlphanum {c : Char} (h : c.isAlphanum) : isAlphanumeric c = true := by
  have hRange : (0x30 ≤ c.toNat ∧ c.toNat ≤ 0x39) ∨ (0x41 ≤ c.toNat ∧ c.toNat ≤ 0x5A) ∨
      (0x61 ≤ c.toNat ∧ c.toNat ≤ 0x7A) := by
    rcases Bool.or_eq_true _ _ ▸ h with hLetter | hDigit
    · exact Or.inr ((isAlpha_iff c).mp hLetter)
    · exact Or.inl ((isDigit_iff c).mp hDigit)
  obtain ⟨rest, hRanges⟩ : ∃ rest, alphanumericRanges =
      (0x30, 0x39) :: (0x41, 0x5A) :: (0x61, 0x7A) :: rest := ⟨_, rfl⟩
  rw [isAlphanumeric, CodePointRanges.contains, hRanges]
  simp only [List.any_cons, Bool.or_eq_true, Bool.and_eq_true, decide_eq_true_eq]
  omega

theorem isAlphanumeric_backslash : isAlphanumeric '\\' = false := by decide +kernel

theorem isAlphanumeric_brace : isAlphanumeric '\x7b' = false := by decide +kernel

/-- How the text of a factor begins. -/
theorem beginsFactor_cases {c : Char} {cs : List Char} (h : beginsFactor (c :: cs) = true) :
    c.isDigit ∨ c.isAlpha ∨ c = '\\' ∨ c = '\x7b' := by
  by_cases hSlash : c = '\\'
  · exact Or.inr (Or.inr (Or.inl hSlash))
  · rw [beginsFactor_cons hSlash, Bool.or_eq_true, Bool.or_eq_true, beq_iff_eq] at h
    obtain (hDigit | hAlpha) | hBrace := h
    · exact Or.inl hDigit
    · exact Or.inr (Or.inl hAlpha)
    · exact Or.inr (Or.inr (Or.inr hBrace))

/-- A thin space stands before a digit, and a blank between letters. With nothing in between, no
letter or digit stands behind another one. -/
theorem gap_cases {before cs : List Char} {c : Char} (hBefore : before ≠ [])
    (h : beginsFactor (c :: cs) = true) :
    gap before (c :: cs) = ['\\', ','] ∨ gap before (c :: cs) = [' '] ∧ c.isAlpha ∨
      gap before (c :: cs) = [] ∧ c.isDigit = false ∧
        ∀ b ∈ before.getLast?, b.isAlphanum → c.isAlphanum = false := by
  have hLast := List.getLast?_eq_some_getLast hBefore
  generalize before.getLast hBefore = b at hLast
  rw [gap, hLast, List.head?_cons]
  simp only
  split
  · exact Or.inl rfl
  · rename_i hDigit
    split
    · rename_i hBoth
      rw [Bool.and_eq_true] at hBoth
      refine Or.inr (Or.inl ⟨rfl, ?_⟩)
      -- Behind a letter or a digit only a letter is set apart by a blank; a command or a brace
      -- needs none.
      obtain hIsDigit | hAlpha | rfl | rfl := beginsFactor_cases h
      · exact absurd hIsDigit hDigit
      · exact hAlpha
      · exact absurd hBoth.2 (by rw [isAlphanumeric_backslash]; decide)
      · exact absurd hBoth.2 (by rw [isAlphanumeric_brace]; decide)
    · rename_i hNotBoth
      refine Or.inr (Or.inr ⟨rfl, Bool.eq_false_iff.mpr hDigit, ?_⟩)
      intro d hd hAlphanum
      obtain rfl := Option.some.inj hd
      by_contra hc
      rw [Bool.not_eq_false] at hc
      exact hNotBoth (by
        rw [isAlphanumeric_of_isAlphanum hAlphanum, isAlphanumeric_of_isAlphanum hc, Bool.true_and])

/-- What stands between two factors is no part of the first. -/
theorem apart_gap {before next : List Char} (hBefore : before ≠ [])
    (hNext : beginsFactor next = true) (rest : List Char) :
    Apart before (gap before next ++ (next ++ rest)) := by
  cases next with
  | nil => exact absurd rfl (ne_nil_of_beginsFactor hNext)
  | cons c cs =>
    intro d hd
    obtain hGap | ⟨hGap, -⟩ | ⟨hGap, hDigit, hApart⟩ := gap_cases hBefore hNext
    · rw [hGap] at hd
      obtain rfl := Option.some.inj hd
      exact ⟨by decide, by decide, fun _ _ _ => by decide⟩
    · rw [hGap] at hd
      obtain rfl := Option.some.inj hd
      exact ⟨by decide, by decide, fun _ _ _ => by decide⟩
    · rw [hGap] at hd
      obtain rfl := Option.some.inj hd
      -- No factor begins with a character that would go on with the text before it.
      have hNe : c ≠ '_' ∧ c ≠ '(' ∧ c ≠ '.' := by
        refine ⟨?_, ?_, ?_⟩ <;>
        · rintro rfl
          exact absurd (beginsFactor_cases hNext) (by decide)
      exact ⟨hNe.1, hNe.2.1, fun b hb hAlphanum => ⟨hApart b hb hAlphanum, hNe.2.2⟩⟩

/-- Behind what stands between two factors the second starts. -/
theorem nextFactor?_gap {before next : List Char} (hBefore : before ≠ [])
    (hNext : beginsFactor next = true) (rest : List Char) :
    nextFactor? (gap before next ++ (next ++ rest)) = some (next ++ rest) := by
  cases next with
  | nil => exact absurd rfl (ne_nil_of_beginsFactor hNext)
  | cons c cs =>
    obtain hGap | ⟨hGap, hAlpha⟩ | ⟨hGap, -, -⟩ := gap_cases hBefore hNext
    · rw [hGap]
      rfl
    · rw [hGap]
      exact if_pos hAlpha
    · -- Without a gap the next factor begins at once, and it begins like a factor.
      have hMore := beginsFactor_append hNext rest
      rw [hGap, List.nil_append]
      generalize c :: cs ++ rest = text at hMore
      unfold nextFactor?
      split
      · exact absurd hMore (by simp [beginsFactor])
      · rw [beginsFactor_cons (by decide)] at hMore
        exact absurd hMore (by decide)
      · exact if_pos hMore

/-! ## Reading factors -/

section Factors

variable {formula : Reader Formula} {product : Reader Product}

/-- The reader reads the formula back, whatever ends it. -/
def Formula.ReadBy (e : Formula) (read : Reader Formula) : Prop :=
  ∀ rest, EndsFormula rest → read (e.text.toList ++ rest) = some (e, rest)

/-- The reader reads the product back, whatever ends it. -/
def Product.ReadBy (p : Product) (read : Reader Product) : Prop :=
  ∀ rest, EndsProduct rest → read (p.text.toList ++ rest) = some (p, rest)

theorem readFactor_command {name : String} (hName : name.toList.all Char.isAlpha = true)
    {cs : List Char} (hcs : cs.head?.any Char.isAlpha = false) :
    readFactor formula product ('\\' :: (name.toList ++ cs)) =
      readCommand formula product name cs := by
  have hBehind : ∀ c ∈ cs.head?, c.isAlpha = false := by
    intro c hc
    rw [hc] at hcs
    exact hcs
  obtain ⟨hTake, hDrop⟩ := takeWhile_append_rest (List.all_eq_true.mp hName) hBehind
  rw [readFactor, hTake, hDrop, String.ofList_toList]

theorem readFactor_group {e : Formula} (h : e.ReadBy formula) (rest : List Char) :
    readFactor formula product ((Factor.group e).text.toList ++ rest) =
      some (.group e, rest) := by
  have hText : (Factor.group e).text.toList ++ rest =
      '\\' :: ("left".toList ++ ("(".toList ++
        (e.text.toList ++ ("\\right)".toList ++ rest)))) := by
    rw [Factor.text, toList_bracketed, List.append_assoc, List.append_assoc]
    rfl
  have hBetween := @between_append _ "(" _ _ _ _ _ (h _ (endsFormula_bracket rest))
  rw [hText, readFactor_command (by decide) rfl]
  simp only [readCommand, hBetween]
  rfl

theorem readFactor_quotient {lhs rhs : Formula} (hL : lhs.ReadBy formula)
    (hR : rhs.ReadBy formula) (rest : List Char) :
    readFactor formula product ((Factor.quotient lhs rhs).text.toList ++ rest) =
      some (.quotient lhs rhs, rest) := by
  have hText : (Factor.quotient lhs rhs).text.toList ++ rest =
      '\x7b' :: (lhs.text.toList ++ (" \\over ".toList ++
        (rhs.text.toList ++ ("\x7d".toList ++ rest)))) := by
    rw [Factor.text, toList_braced, String.toList_append, String.toList_append]
    simp only [List.append_assoc, List.cons_append]
    rfl
  have hBetween := @between_append _ " \\over " _ _ _ _ _ (hR _ (endsFormula_brace rest))
  rw [hText, readFactor, readBraces, hL _ (endsFormula_over _)]
  simp only [Option.bind_eq_bind, Option.bind_some]
  split
  · rename_i hEq
    exact absurd (List.cons.inj hEq).1 (by decide)
  · rw [hBetween]
    rfl

theorem readFactor_power {base exponent : Formula} (hL : base.ReadBy formula)
    (hR : exponent.ReadBy formula) (rest : List Char) :
    readFactor formula product ((Factor.power base exponent).text.toList ++ rest) =
      some (.power base exponent, rest) := by
  have hText : (Factor.power base exponent).text.toList ++ rest =
      '\x7b' :: (base.text.toList ++ ("\x7d".toList ++ ("^\x7b".toList ++
        (exponent.text.toList ++ ("\x7d".toList ++ rest))))) := by
    rw [Factor.text, String.toList_append, String.toList_append, toList_braced, toList_braced]
    simp only [List.append_assoc, List.cons_append]
    rfl
  have hBetween := @between_append _ "^\x7b" _ _ _ _ _ (hR _ (endsFormula_brace rest))
  rw [hText, readFactor, readBraces, hL _ (endsFormula_brace _)]
  show (do
    let (e, cs) ← between "^\x7b" "\x7d" formula ("^\x7b".toList ++
        (exponent.text.toList ++ ("\x7d".toList ++ rest)))
    return (Factor.power base e, cs)) = _
  rw [hBetween]
  rfl

theorem readFactor_call {f : NamedFunction} {argument : Formula} (h : argument.ReadBy formula)
    (rest : List Char) :
    readFactor formula product ((Factor.call f argument).text.toList ++ rest) =
      some (.call f argument, rest) := by
  have hBracket := h _ (endsFormula_bracket rest)
  have hBrace := h _ (endsFormula_brace rest)
  -- Most functions are a command with the argument in brackets.
  have hPlain : f.name.toList.all Char.isAlpha = true →
      (∀ cs, readCommand formula product f.name cs = do
        let (e, cs) ← between "\\left(" "\\right)" formula cs
        return (.call f e, cs)) →
      f.latex argument.text = "\\" ++ f.name ++ bracketed argument.text →
      readFactor formula product ((f.latex argument.text).toList ++ rest) =
        some (.call f argument, rest) := by
    intro hName hCommand hLatex
    have hBetween := @between_append _ "\\left(" _ _ _ _ _ hBracket
    have hText : (f.latex argument.text).toList ++ rest = '\\' :: (f.name.toList ++
        ("\\left(".toList ++ (argument.text.toList ++ ("\\right)".toList ++ rest)))) := by
      rw [hLatex, String.toList_append, String.toList_append, toList_bracketed]
      simp only [List.append_assoc]
      rfl
    rw [hText, readFactor_command hName rfl, hCommand, hBetween]
    rfl
  show readFactor formula product ((f.latex argument.text).toList ++ rest) = _
  cases f with
  | sqrt =>
    have hBetween := @between_append _ "\x7b" _ _ _ _ _ hBrace
    have hText : (NamedFunction.sqrt.latex argument.text).toList ++ rest = '\\' :: ("sqrt".toList ++
        ("\x7b".toList ++ (argument.text.toList ++ ("\x7d".toList ++ rest)))) := by
      rw [NamedFunction.latex, String.toList_append, toList_braced]
      simp only [List.append_assoc, List.cons_append]
      rfl
    rw [hText, readFactor_command (by decide) rfl]
    simp only [readCommand, hBetween]
    rfl
  | relu =>
    have hBetween := @between_append _ "\x7brelu\x7d\\left(" _ _ _ _ _ hBracket
    have hText : (NamedFunction.relu.latex argument.text).toList ++ rest =
        '\\' :: ("mathrm".toList ++ ("\x7brelu\x7d\\left(".toList ++
          (argument.text.toList ++ ("\\right)".toList ++ rest)))) := by
      rw [NamedFunction.latex, String.toList_append, String.toList_append, toList_bracketed]
      simp only [List.append_assoc]
      rfl
    rw [hText, readFactor_command (by decide) rfl]
    simp only [readCommand, hBetween]
    rfl
  | exp => exact hPlain (by decide) (fun _ => rfl) rfl
  | log => exact hPlain (by decide) (fun _ => rfl) rfl
  | sin => exact hPlain (by decide) (fun _ => rfl) rfl
  | cos => exact hPlain (by decide) (fun _ => rfl) rfl
  | tanh => exact hPlain (by decide) (fun _ => rfl) rfl

theorem readComparison_latex (c : Comparison) (rest : List Char) :
    readComparison ((" " ++ c.latex ++ " ").toList ++ rest) = some (c, rest) := by
  cases c <;> rfl

theorem readFactor_indicator {c : Comparison} {lhs rhs : Formula} (hL : lhs.ReadBy formula)
    (hR : rhs.ReadBy formula) (rest : List Char) :
    readFactor formula product ((Factor.indicator c lhs rhs).text.toList ++ rest) =
      some (.indicator c lhs rhs, rest) := by
  have hText : (Factor.indicator c lhs rhs).text.toList ++ rest =
      '\\' :: ("mathbb".toList ++ ("\x7b1\x7d_\x7b".toList ++ (lhs.text.toList ++
        ((" " ++ c.latex ++ " ").toList ++ (rhs.text.toList ++ ("\x7d".toList ++ rest)))))) := by
    rw [Factor.text]
    simp only [Formula.text, String.toList_append, toList_braced, List.append_assoc,
      List.cons_append]
    rfl
  rw [hText, readFactor_command (by decide) rfl]
  simp only [readCommand, expect_append, Option.bind_eq_bind, Option.bind_some,
    hL _ (endsFormula_comparison c _), readComparison_latex, hR _ (endsFormula_brace rest)]
  rfl

theorem readFactor_sum {indices : List Index} {body : Product} (hIndices : LegibleIndices indices)
    (h : body.ReadBy product) {rest : List Char} (hRest : EndsProduct rest) :
    readFactor formula product ((Factor.sum indices body).text.toList ++ rest) =
      some (.sum indices body, rest) := by
  have hText : (Factor.sum indices body).text.toList ++ rest =
      '\\' :: ("sum".toList ++ ("_\x7b".toList ++ ((Index.rowText indices).toList ++
        '\x7d' :: (body.text.toList ++ rest)))) := by
    rw [Factor.text]
    simp only [String.toList_append, toList_braced, List.append_assoc, List.cons_append]
    rfl
  rw [hText, readFactor_command (by decide) rfl]
  simp only [readCommand, expect_append, Option.bind_eq_bind, Option.bind_some,
    readRow_rowText hIndices, h _ hRest]
  rfl

theorem readFactor_cons {c : Char} (hBrace : c ≠ '\x7b') (hSlash : c ≠ '\\') (cs : List Char) :
    readFactor formula product (c :: cs) =
      if c.isDigit then some (.numeral (readNumeral (c :: cs)).1, (readNumeral (c :: cs)).2)
      else some (.symbol (readReference "" (c :: cs)).1, (readReference "" (c :: cs)).2) := by
  rw [readFactor]
  · exact hBrace
  · exact hSlash

theorem readFactor_numeral {digits : String} (h : IsNumeral digits) {rest : List Char}
    (hRest : Apart digits.toList rest) :
    readFactor formula product (digits.toList ++ rest) = some (.numeral digits, rest) := by
  obtain ⟨c, cs, hDigits, hc⟩ := h.head
  have hBrace : c ≠ '\x7b' := by
    rintro rfl
    exact absurd hc (by decide)
  have hSlash : c ≠ '\\' := by
    rintro rfl
    exact absurd hc (by decide)
  have hRead := readNumeral_text h hRest
  rw [hDigits, List.cons_append] at hRead ⊢
  rw [readFactor_cons hBrace hSlash, if_pos hc, hRead]

theorem readFactor_symbol {r : Reference} (h : r.Legible) {rest : List Char}
    (hRest : Apart r.latex.toList rest) :
    readFactor formula product (r.latex.toList ++ rest) = some (.symbol r, rest) := by
  obtain ⟨c, cs, hc, hcs, hName⟩ := h.name
  have hAll : ∀ d ∈ c :: cs, d.isAlphanum := by
    intro d hd
    rcases List.mem_cons.mp hd with rfl | hd
    · rw [Char.isAlphanum, hc, Bool.true_or]
    · exact hcs d hd
  have hText : r.latex.toList ++ rest = r.symbol.name.toList ++
      ((subscriptText r.indices).toList ++ (r.symbol.dependenciesText.toList ++ rest)) := by
    show (r.symbol.name ++ subscriptText r.indices ++ r.symbol.dependenciesText).toList ++ rest = _
    simp only [String.toList_append, List.append_assoc]
  -- What stands before the letters has been read already.
  have hRead : ∀ front : String, r.symbol.name.toList = front.toList ++ c :: cs →
      readReference front (c :: cs ++ ((subscriptText r.indices).toList ++
        (r.symbol.dependenciesText.toList ++ rest))) = (r, rest) := by
    intro front hFront
    refine readReference_latex h (by simp) hAll ?_ hRest
    apply String.toList_inj.mp
    rw [hFront, String.toList_append, String.toList_ofList]
  -- A name begins with a letter, or with the sign of a cotangent before that letter.
  rcases hName with hName | hName
  · have hBrace : c ≠ '\x7b' := by
      rintro rfl
      exact absurd hc (by decide)
    have hSlash : c ≠ '\\' := by
      rintro rfl
      exact absurd hc (by decide)
    have hDigit := not_isDigit_of_isAlpha hc
    have hPlain := hRead "" hName
    rw [hText, hName, List.cons_append, readFactor_cons hBrace hSlash, if_neg hDigit,
      ← List.cons_append, hPlain]
  · have hDelta := hRead "\\delta " hName
    have hCommand : r.latex.toList ++ rest = '\\' :: ("delta".toList ++ (" ".toList ++
        (c :: cs ++ ((subscriptText r.indices).toList ++
          (r.symbol.dependenciesText.toList ++ rest))))) := by
      rw [hText, hName, List.append_assoc]
      rfl
    rw [hCommand, readFactor_command (by decide) rfl]
    simp only [readCommand, expect_append, Option.bind_eq_bind, Option.bind_some, hDelta]
    rfl

end Factors

/-! ## Reading back -/

/-- A formula is read back if its summands are. -/
theorem Formula.readBy_readFormula {e : Formula} (h : e.Legible)
    (hRead : ∀ fuel, e.size ≤ fuel → ∀ rest, EndsFormula rest →
      readSummands fuel e.negative (e.unsigned.toList ++ rest) = some (e, rest))
    {fuel : Nat} (hFuel : e.size < fuel) : e.ReadBy (readFormula fuel) := by
  intro rest hEnds
  obtain ⟨fuel, rfl⟩ : ∃ k, fuel = k + 1 := ⟨fuel - 1, by omega⟩
  have hSummands := hRead fuel (Nat.lt_succ_iff.mp hFuel) rest hEnds
  rw [Formula.text, String.toList_append, List.append_assoc]
  cases hSign : e.negative with
  | true =>
    rw [hSign] at hSummands
    exact hSummands
  | false =>
    rw [hSign] at hSummands
    rw [← hSummands]
    -- Without a sign the text begins with a factor, not with a minus sign.
    have hBegins := beginsFactor_append (Formula.beginsFactor_unsigned h) rest
    show readFormula (fuel + 1) (e.unsigned.toList ++ rest) = _
    generalize e.unsigned.toList ++ rest = text at hBegins
    rw [readFormula]
    rintro cs rfl
    rw [beginsFactor_cons (by decide)] at hBegins
    exact absurd hBegins (by decide)

mutual

/-- **A factor is read back from its text.** -/
theorem readFactor_text : ∀ (f : Factor), f.Legible → ∀ fuel, f.size ≤ fuel → ∀ rest,
    Apart f.text.toList rest → (f.isSum = true → EndsProduct rest) →
    readFactor (readFormula fuel) (readProduct fuel) (f.text.toList ++ rest) = some (f, rest)
  | .symbol _, h, _, _, _, hApart, _ => readFactor_symbol h hApart
  | .numeral _, h, _, _, _, hApart, _ => readFactor_numeral h hApart
  | .group e, h, fuel, hFuel, rest, _, _ => by
    rw [Factor.size] at hFuel
    exact readFactor_group (Formula.readBy_readFormula h (readSummands_text e h) (by omega)) rest
  -- The fuel that is left suffices for both parts, for each is smaller than the whole.
  | .quotient lhs rhs, h, fuel, hFuel, rest, _, _ => by
    rw [Factor.size] at hFuel
    have hL : lhs.ReadBy (readFormula fuel) :=
      Formula.readBy_readFormula h.1 (readSummands_text lhs h.1) (by omega)
    have hR : rhs.ReadBy (readFormula fuel) :=
      Formula.readBy_readFormula h.2 (readSummands_text rhs h.2) (by omega)
    exact readFactor_quotient hL hR rest
  | .power base exponent, h, fuel, hFuel, rest, _, _ => by
    rw [Factor.size] at hFuel
    have hL : base.ReadBy (readFormula fuel) :=
      Formula.readBy_readFormula h.1 (readSummands_text base h.1) (by omega)
    have hR : exponent.ReadBy (readFormula fuel) :=
      Formula.readBy_readFormula h.2 (readSummands_text exponent h.2) (by omega)
    exact readFactor_power hL hR rest
  | .call _ argument, h, fuel, hFuel, rest, _, _ => by
    rw [Factor.size] at hFuel
    have hArgument : argument.ReadBy (readFormula fuel) :=
      Formula.readBy_readFormula h (readSummands_text argument h) (by omega)
    exact readFactor_call hArgument rest
  | .indicator _ lhs rhs, h, fuel, hFuel, rest, _, _ => by
    rw [Factor.size] at hFuel
    have hL : lhs.ReadBy (readFormula fuel) :=
      Formula.readBy_readFormula h.1 (readSummands_text lhs h.1) (by omega)
    have hR : rhs.ReadBy (readFormula fuel) :=
      Formula.readBy_readFormula h.2 (readSummands_text rhs h.2) (by omega)
    exact readFactor_indicator hL hR rest
  | .sum _ body, h, fuel, hFuel, _, _, hEnds => by
    rw [Factor.size] at hFuel
    exact readFactor_sum h.1 (readProduct_text body h.2 fuel (by omega)) (hEnds rfl)

/-- **A product is read back from its text.** -/
theorem readProduct_text : ∀ (p : Product), p.Legible → ∀ fuel, p.size ≤ fuel →
    p.ReadBy (readProduct fuel)
  | .last f, h, fuel + 1, hFuel, rest, hEnds => by
    rw [Product.size] at hFuel
    have hFactor := readFactor_text f h fuel (by omega) rest
      (apart_of_standsApart hEnds.apart _) fun _ => hEnds
    rw [Product.text, readProduct, hFactor]
    simp only [Option.bind_eq_bind, Option.bind_some, hEnds.factor]
    rfl
  | .times f more, h, fuel + 1, hFuel, rest, hEnds => by
    rw [Product.size] at hFuel
    obtain ⟨hLegible, hSum, hMore⟩ := h
    -- A factor that is not the last is no sum, so the text behind it does not have to end the
    -- product.
    have hNonempty := ne_nil_of_beginsFactor (Factor.beginsFactor_text hLegible)
    have hBegins := Product.beginsFactor_text hMore
    have hFactor := readFactor_text f hLegible fuel (by omega) _
      (apart_gap hNonempty hBegins rest) fun hIsSum => absurd hIsSum (by simp [hSum])
    have hRest := readProduct_text more hMore fuel (by omega) rest hEnds
    rw [Product.text, toList_juxtaposed, List.append_assoc, List.append_assoc, readProduct,
      hFactor]
    simp only [Option.bind_eq_bind, Option.bind_some, nextFactor?_gap hNonempty hBegins, hRest]
    rfl
  | .last _, _, 0, hFuel, _, _ => absurd hFuel (by simp [Product.size])
  | .times _ _, _, 0, hFuel, _, _ => absurd hFuel (by simp [Product.size])

/-- **Summands are read back from their text.** -/
theorem readSummands_text : ∀ (e : Formula), e.Legible → ∀ fuel, e.size ≤ fuel → ∀ rest,
    EndsFormula rest →
    readSummands fuel e.negative (e.unsigned.toList ++ rest) = some (e, rest)
  | .last negative p, h, fuel + 1, hFuel, rest, hEnds => by
    rw [Formula.size] at hFuel
    have hProduct := readProduct_text p h fuel (by omega) rest hEnds.toEndsProduct
    rw [Formula.unsigned, readSummands, hProduct]
    simp only [Option.bind_eq_bind, Option.bind_some, hEnds.summand]
    rfl
  -- The operator behind the product ends it, and its sign belongs to the next summand.
  | .plus negative p more, h, fuel + 1, hFuel, rest, hEnds => by
    rw [Formula.size] at hFuel
    have hProduct := readProduct_text p h.1 fuel (by omega) _
      (endsProduct_operator more.negative (more.unsigned.toList ++ rest))
    have hMore := readSummands_text more h.2 fuel (by omega) rest hEnds
    rw [Formula.unsigned, String.toList_append, String.toList_append, List.append_assoc,
      List.append_assoc, readSummands, hProduct]
    simp only [Option.bind_eq_bind, Option.bind_some, nextSummand?_operator, hMore]
    rfl
  | .last _ _, _, 0, hFuel, _, _ => absurd hFuel (by simp [Formula.size])
  | .plus _ _ _, _, 0, hFuel, _, _ => absurd hFuel (by simp [Formula.size])

end

/-- **A formula is read back from its text.** -/
theorem readFormula_text {e : Formula} (h : e.Legible) {fuel : Nat} (hFuel : e.size < fuel) :
    readFormula fuel e.text.toList = some (e, []) := by
  have hRead := Formula.readBy_readFormula h (readSummands_text e h) hFuel [] endsFormula_nil
  rwa [List.append_nil] at hRead

end Written

namespace Expr

variable {R : Type*} [CommRing R]

/-- **The text of a formula determines its value.** Numbers have the values that their texts are
read as; symbols, index ranges and everything beyond the ring operations may mean anything. -/
theorem value_eq_of_latex_eq {d e : Expr} (hd : d.Legible) (he : e.Legible)
    (hText : latex d = latex e) {M : Meaning R} {read : String → R} (hRead : ReadsBack M read)
    (σ : Assignment) : d.value M σ = e.value M σ := by
  have hForm : d.written = e.written := by
    have hFuel : d.written.size < d.written.size + e.written.size + 1 := by omega
    have hLeft := Written.readFormula_text hd.written hFuel
    rw [text_written hd, hText, ← text_written he,
      Written.readFormula_text he.written (by omega)] at hLeft
    exact (congrArg Prod.fst (Option.some.inj hLeft)).symm
  rw [← value_written hRead hd, hForm, value_written hRead he]

/-- The number that a whole numeral with any number of minus signs stands for. -/
def readInteger : List Char → Int
  | '-' :: cs => -readInteger cs
  | cs => digitsValue cs

/-- A meaning of formulas in whole numbers, where symbols stand for the sums of their
coordinates. -/
def integerMeaning : Meaning Int where
  literal x := readInteger (literalText x).toList
  div := (· / ·)
  pow a b := a ^ b.toNat
  call _ a := a
  indicator _ a b := if a < b then 1 else 0
  foreign _ _ _ _ := 0
  array _ c := c.sum
  extent _ := 3

/-- A negated number is written like a negative one, and a difference behind a plus sign like
the difference of a sum. -/
theorem value_eq_of_latex_eq_difference :
    let x : Expr := .sum [⟨'i', 0⟩] (.var ⟨.plain "x", [⟨'i', 0⟩]⟩)
    let y : Expr := .var ⟨.plain "y", []⟩
    let d : Expr := .binary .add (.neg (.literal 2)) (.binary .sub x y)
    let e : Expr := .binary .sub (.binary .add (.literal (-2)) x) y
    latex d = latex e ∧ ∀ σ, d.value integerMeaning σ = e.value integerMeaning σ := by
  intro x y d e
  have hName : ∀ name ∈ ["x", "y"], LegibleName name := by
    intro name hName
    rcases List.mem_cons.mp hName with rfl | hName
    · exact ⟨'x', [], by decide, by simp, Or.inl rfl⟩
    · rw [List.mem_singleton] at hName
      exact ⟨'y', [], by decide, by simp, Or.inl (by rw [hName]; rfl)⟩
  have hIndex : LegibleIndices [⟨'i', 0⟩] := by
    intro i hi
    obtain rfl := List.mem_singleton.mp hi
    decide
  have hx : x.Legible := ⟨hIndex, hName "x" (by simp), by simp [Symbol.plain], hIndex⟩
  have hy : y.Legible := ⟨hName "y" (by simp), by simp [Symbol.plain], by simp [LegibleIndices]⟩
  -- Both numbers are finite, and both names are single letters.
  have hTwo : FiniteNumber 2 := ⟨false, 4503599627370496, -51, by decide +kernel⟩
  have hMinusTwo : FiniteNumber (-2) := ⟨true, 4503599627370496, -51, by decide +kernel⟩
  have hd : d.Legible := ⟨hTwo, hx, hy⟩
  have he : e.Legible := ⟨⟨hMinusTwo, hx⟩, hy⟩
  have hText : latex d = latex e := by decide +kernel
  have hRead : ReadsBack integerMeaning (fun s => readInteger s.toList) :=
    ⟨fun _ _ => rfl, fun s => by rw [String.toList_append]; rfl⟩
  exact ⟨hText, value_eq_of_latex_eq hd he hText hRead⟩

end Expr

end ArrayEquations
