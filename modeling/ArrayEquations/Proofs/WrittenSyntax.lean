import ArrayEquations.Expression.Latex
import ArrayEquations.Proofs.Formula
import ArrayEquations.Proofs.Numerals

/-!
# ArrayEquations — formulas as they are written

What a reader sees of a formula: summands in a row, each a row of factors. How sums and
products were nested does not show, except by brackets. This is the grammar of the texts
that formulas have; each of its forms has a text and a value.

## Main definitions

* `Meaning` — what symbols, numbers and operations stand for.
* `Written.Factor`, `Written.Product`, `Written.Formula` — the grammar.
* `Written.Formula.text`, `Written.Formula.value` — the text and the value of a form.
* `Written.Formula.Legible` — the names, numerals and indices in it are such.

## Main results

* `Written.Formula.text_append`, `Written.Product.text_append` — the texts of longer rows.
* `Written.Formula.value_product` — brackets keep the value.
-/

namespace ArrayEquations

/-- What the parts of a formula stand for. -/
structure Meaning (R : Type*) extends Interpretation R where
  /-- The entries of the array that a symbol stands for. -/
  array : Symbol → List Nat → R
  /-- How many positions an index has. -/
  extent : Index → Nat

/-! ## Legible parts -/

/-- Letters and digits, a letter first. `\delta` may stand in front of it. -/
def LegibleName (name : String) : Prop :=
  ∃ (c : Char) (cs : List Char), c.isAlpha ∧ (∀ d ∈ cs, d.isAlphanum) ∧
    (name.toList = c :: cs ∨ name.toList = "\\delta ".toList ++ c :: cs)

/-- The letters of indices are letters. -/
def LegibleIndices (is : List Index) : Prop := ∀ i ∈ is, i.letter.isAlpha

/-- The names and the indices are such. -/
structure Reference.Legible (r : Reference) : Prop where
  name : LegibleName r.symbol.name
  dependencies : ∀ d ∈ r.symbol.dependencies, LegibleName d
  indices : LegibleIndices r.indices

namespace Written

/-! ## The grammar -/

mutual

/-- What can be multiplied. -/
inductive Factor where
  | symbol (r : Reference)
  /-- A number without a sign. -/
  | numeral (digits : String)
  | group (e : Formula)
  | quotient (lhs rhs : Formula)
  | power (base exponent : Formula)
  | call (f : NamedFunction) (argument : Formula)
  | indicator (c : Comparison) (lhs rhs : Formula)
  /-- A summation, which takes in all factors behind it. -/
  | sum (indices : List Index) (body : Product)

/-- Factors side by side. -/
inductive Product where
  | last (f : Factor)
  | times (f : Factor) (rest : Product)

/-- Summands in a row, each with a sign. -/
inductive Formula where
  | last (negative : Bool) (p : Product)
  | plus (negative : Bool) (p : Product) (rest : Formula)

end

/-- Whether the first summand is subtracted. -/
def Formula.negative : Formula → Bool
  | .last negative _ | .plus negative _ _ => negative

/-- The sign between two summands. -/
def operatorText (negative : Bool) : String := if negative then " - " else " + "

mutual

/-- The text of a factor. -/
def Factor.text : Factor → String
  | .symbol r => r.latex
  | .numeral digits => digits
  | .group e => bracketed (signText e.negative ++ e.unsigned)
  | .quotient lhs rhs =>
    braced ((signText lhs.negative ++ lhs.unsigned) ++ " \\over " ++
      (signText rhs.negative ++ rhs.unsigned))
  | .power base exponent =>
    braced (signText base.negative ++ base.unsigned) ++ "^" ++
      braced (signText exponent.negative ++ exponent.unsigned)
  | .call f argument => f.latex (signText argument.negative ++ argument.unsigned)
  | .indicator c lhs rhs =>
    "\\mathbb" ++ braced "1" ++ "_" ++
      braced ((signText lhs.negative ++ lhs.unsigned) ++ " " ++ c.latex ++ " " ++
        (signText rhs.negative ++ rhs.unsigned))
  | .sum indices body => "\\sum_" ++ braced (Index.rowText indices) ++ body.text

/-- The text of a product. -/
def Product.text : Product → String
  | .last f => f.text
  | .times f rest => juxtaposed f.text rest.text

/-- The text of a formula from behind the sign of the first summand. -/
def Formula.unsigned : Formula → String
  | .last _ p => p.text
  | .plus _ p rest => p.text ++ operatorText rest.negative ++ rest.unsigned

end

/-- The text of a formula. -/
def Formula.text (e : Formula) : String := signText e.negative ++ e.unsigned

/-- Whether a factor is a summation. -/
def Factor.isSum : Factor → Bool
  | .sum _ _ => true
  | _ => false

mutual

/-- All names, numerals and indices are such, and nothing stands behind a summation. -/
def Factor.Legible : Factor → Prop
  | .symbol r => r.Legible
  | .numeral digits => IsNumeral digits
  | .group e => e.Legible
  | .quotient lhs rhs => lhs.Legible ∧ rhs.Legible
  | .power base exponent => base.Legible ∧ exponent.Legible
  | .call _ argument => argument.Legible
  | .indicator _ lhs rhs => lhs.Legible ∧ rhs.Legible
  | .sum indices body => LegibleIndices indices ∧ body.Legible

/-- All factors are legible, and none but the last is a summation. -/
def Product.Legible : Product → Prop
  | .last f => f.Legible
  | .times f rest => f.Legible ∧ f.isSum = false ∧ rest.Legible

/-- All summands are legible. -/
def Formula.Legible : Formula → Prop
  | .last _ p => p.Legible
  | .plus _ p rest => p.Legible ∧ rest.Legible

end

section Value

variable {R : Type*} [CommRing R] (M : Meaning R) (read : String → R)

/-- A value with a sign. -/
def signed (negative : Bool) (x : R) : R := if negative then -x else x

mutual

/-- The value of a factor, given what numerals are read as. -/
def Factor.value : Factor → Assignment → R
  | .symbol r, σ => M.array r.symbol (r.indices.map σ)
  | .numeral digits, _ => read digits
  | .group e, σ => e.value σ
  | .quotient lhs rhs, σ => M.div (lhs.value σ) (rhs.value σ)
  | .power base exponent, σ => M.pow (base.value σ) (exponent.value σ)
  | .call f argument, σ => M.call f (argument.value σ)
  | .indicator c lhs rhs, σ => M.indicator c (lhs.value σ) (rhs.value σ)
  | .sum indices body, σ => sumOver (indices.map fun i => (i, M.extent i)) body.value σ

/-- The value of a product. -/
def Product.value : Product → Assignment → R
  | .last f, σ => f.value σ
  | .times f rest, σ => f.value σ * rest.value σ

/-- The value of a formula. -/
def Formula.value : Formula → Assignment → R
  | .last negative p, σ => signed negative (p.value σ)
  | .plus negative p rest, σ => signed negative (p.value σ) + rest.value σ

end

end Value

/-! ## Strength -/

/-- How tightly the parts of a factor hold together. -/
def Factor.strength : Factor → Strength
  | .quotient _ _ | .sum _ _ => .product
  | .power _ _ => .power
  | _ => .atom

/-- How tightly factors side by side hold together. -/
def Product.strength : Product → Strength
  | .last f => f.strength
  | .times _ _ => .product

/-- How tightly summands in a row hold together. -/
def Formula.strength : Formula → Strength
  | .last false p => p.strength
  | _ => .sum

/-- Whether the last factor is a summation. -/
def Product.endsInSum : Product → Bool
  | .last f => f.isSum
  | .times _ rest => rest.endsInSum

theorem Product.product_le_strength (p : Product) : Strength.product ≤ p.strength := by
  cases p with
  | last f => cases f <;> exact Nat.le_of_ble_eq_true rfl
  | times f rest => exact Nat.le_refl _

/-! ## Longer rows -/

/-- A formula of one factor. -/
def Formula.ofFactor (f : Factor) : Formula := .last false (.last f)

/-- More factors behind those of a product. -/
def Product.append : Product → Product → Product
  | .last f, q => .times f q
  | .times f p, q => .times f (p.append q)

/-- More summands behind those of a formula. -/
def Formula.append : Formula → Formula → Formula
  | .last negative p, d => .plus negative p d
  | .plus negative p rest, d => .plus negative p (rest.append d)

/-- A formula as factors, in brackets if it is not a product. -/
def Formula.product : Formula → Product
  | .last false p => p
  | e => .last (.group e)

/-- A formula as factors with others behind them, also in brackets if it ends in a
summation. -/
def Formula.leftFactor (e : Formula) : Product :=
  if e.product.endsInSum then .last (.group e) else e.product

/-- A formula as summands behind a plus sign, in brackets if it starts with a minus sign. -/
def Formula.addend (e : Formula) : Formula := if e.negative then .ofFactor (.group e) else e

/-- A formula as a base, in brackets if it is not a single factor. -/
def Formula.atom (e : Formula) : Formula :=
  if e.strength < .atom then .ofFactor (.group e) else e

@[simp] theorem Formula.negative_ofFactor (f : Factor) : (Formula.ofFactor f).negative = false :=
  rfl

@[simp] theorem Formula.strength_ofFactor (f : Factor) :
    (Formula.ofFactor f).strength = f.strength :=
  rfl

@[simp] theorem Formula.product_ofFactor (f : Factor) : (Formula.ofFactor f).product = .last f :=
  rfl

@[simp] theorem Formula.negative_append (e d : Formula) :
    (e.append d).negative = e.negative := by
  cases e <;> rfl

@[simp] theorem Formula.negative_addend (e : Formula) : e.addend.negative = false := by
  unfold addend
  split
  · rfl
  · exact Bool.eq_false_iff.mpr ‹_›

/-- Two formulas in a row are not a product. -/
@[simp] theorem Formula.strength_append (e d : Formula) : (e.append d).strength = .sum := by
  cases e <;> rfl

/-- A formula that is a product is not in brackets as one. -/
theorem Formula.eq_last_product {e : Formula} (h : Strength.product ≤ e.strength) :
    e = .last false e.product := by
  cases e with
  | last negative p =>
    cases negative with
    | false => rfl
    | true => exact absurd h (Nat.not_succ_le_zero 0)
  | plus negative p rest => exact absurd h (Nat.not_succ_le_zero 0)

theorem Formula.product_of_lt {e : Formula} (h : e.strength < .product) :
    e.product = .last (.group e) := by
  cases e with
  | last negative p =>
    cases negative with
    | false => exact absurd h (Nat.not_lt.mpr p.product_le_strength)
    | true => rfl
  | plus negative p rest => rfl

theorem Product.endsInSum_append (p q : Product) : (p.append q).endsInSum = q.endsInSum :=
  match p with
  | .last _ => rfl
  | .times _ p => endsInSum_append p q

/-! ### Legible rows -/

@[simp] theorem Formula.legible_ofFactor (f : Factor) :
    (Formula.ofFactor f).Legible ↔ f.Legible :=
  Iff.rfl

theorem Formula.Legible.append {e d : Formula} (he : e.Legible) (hd : d.Legible) :
    (e.append d).Legible :=
  match e with
  | .last _ _ => ⟨he, hd⟩
  | .plus _ _ _ => ⟨he.1, Legible.append he.2 hd⟩

theorem Product.Legible.append {p q : Product} (hp : p.Legible) (hSum : p.endsInSum = false)
    (hq : q.Legible) : (p.append q).Legible :=
  match p with
  | .last _ => ⟨hp, hSum, hq⟩
  | .times _ _ => ⟨hp.1, hp.2.1, Legible.append hp.2.2 hSum hq⟩

theorem Formula.Legible.product {e : Formula} (h : e.Legible) : e.product.Legible := by
  cases e with
  | last negative p => cases negative <;> exact h
  | plus negative p rest => exact h

theorem Formula.Legible.leftFactor {e : Formula} (h : e.Legible) :
    e.leftFactor.Legible ∧ e.leftFactor.endsInSum = false := by
  unfold Formula.leftFactor
  split
  · exact ⟨h, rfl⟩
  · exact ⟨h.product, Bool.eq_false_iff.mpr ‹_›⟩

theorem Formula.Legible.addend {e : Formula} (h : e.Legible) : e.addend.Legible := by
  unfold Formula.addend
  split <;> exact h

theorem Formula.Legible.atom {e : Formula} (h : e.Legible) : e.atom.Legible := by
  unfold Formula.atom
  split <;> exact h

/-! ### Values of rows -/

section Value

variable {R : Type*} [CommRing R] (M : Meaning R) (read : String → R)

@[simp] theorem Formula.value_ofFactor (f : Factor) (σ : Assignment) :
    (Formula.ofFactor f).value M read σ = f.value M read σ :=
  rfl

@[simp] theorem Formula.value_append (e d : Formula) (σ : Assignment) :
    (e.append d).value M read σ = e.value M read σ + d.value M read σ := by
  match e with
  | .last negative p => rfl
  | .plus negative p rest =>
    rw [Formula.append, Formula.value, value_append rest d σ, Formula.value, add_assoc]

@[simp] theorem Product.value_append (p q : Product) (σ : Assignment) :
    (p.append q).value M read σ = p.value M read σ * q.value M read σ := by
  match p with
  | .last f => rfl
  | .times f p =>
    rw [Product.append, Product.value, value_append p q σ, Product.value, mul_assoc]

/-- **Brackets keep the value.** -/
@[simp] theorem Formula.value_product (e : Formula) (σ : Assignment) :
    e.product.value M read σ = e.value M read σ := by
  cases e with
  | last negative p => cases negative <;> rfl
  | plus negative p rest => rfl

@[simp] theorem Formula.value_leftFactor (e : Formula) (σ : Assignment) :
    e.leftFactor.value M read σ = e.value M read σ := by
  unfold leftFactor
  split
  · rfl
  · exact e.value_product M read σ

@[simp] theorem Formula.value_addend (e : Formula) (σ : Assignment) :
    e.addend.value M read σ = e.value M read σ := by
  unfold addend
  split <;> rfl

@[simp] theorem Formula.value_atom (e : Formula) (σ : Assignment) :
    e.atom.value M read σ = e.value M read σ := by
  unfold atom
  split <;> rfl

end Value

/-! ## Texts of rows -/

/-- What stands between the texts of two factors. -/
def gap (lhs rhs : List Char) : List Char :=
  match lhs.getLast?, rhs.head? with
  | some last, some first =>
    if first.isDigit then ['\\', ',']
    else if isAlphanumeric last && isAlphanumeric first then [' ']
    else []
  | _, _ => []

theorem toList_juxtaposed (lhs rhs : String) :
    (juxtaposed lhs rhs).toList = lhs.toList ++ gap lhs.toList rhs.toList ++ rhs.toList := by
  unfold juxtaposed gap
  cases lhs.toList.getLast? with
  | none => simp
  | some last =>
    cases rhs.toList.head? with
    | none => simp
    | some first =>
      simp only
      split
      · simp
      · split <;> simp

/-- A text between two others sets both apart from itself only. -/
theorem juxtaposed_assoc (a c : String) {b : String} (hb : b.toList ≠ []) :
    juxtaposed (juxtaposed a b) c = juxtaposed a (juxtaposed b c) := by
  have hLast : ∀ cs : List Char, (cs ++ b.toList).getLast? = b.toList.getLast? := fun cs => by
    rw [List.getLast?_append_of_ne_nil _ hb]
  have hHead : ∀ cs : List Char, (b.toList ++ cs).head? = b.toList.head? := fun cs => by
    rw [List.head?_append_of_ne_nil _ hb]
  apply String.toList_inj.mp
  rw [toList_juxtaposed, toList_juxtaposed, toList_juxtaposed, toList_juxtaposed]
  have hLeft : gap (a.toList ++ gap a.toList b.toList ++ b.toList) c.toList =
      gap b.toList c.toList := by
    rw [gap, hLast, gap]
  have hRight : gap a.toList (b.toList ++ gap b.toList c.toList ++ c.toList) =
      gap a.toList b.toList := by
    rw [gap, List.append_assoc, hHead, gap]
  rw [hLeft, hRight]
  simp only [List.append_assoc]

/-- Whether a text begins like that of a factor: with a digit, a letter, a brace or a command.
Commands are neither the thin space nor the closing bracket. -/
def beginsFactor : List Char → Bool
  | '\\' :: c :: _ => c.isAlpha && c != 'r'
  | c :: _ => c.isDigit || c.isAlpha || c == '\x7b'
  | [] => false

theorem beginsFactor_cons {c : Char} (h : c ≠ '\\') (cs : List Char) :
    beginsFactor (c :: cs) = (c.isDigit || c.isAlpha || c == '\x7b') := by
  cases cs <;> simp [beginsFactor, h]

theorem beginsFactor_append {cs : List Char} (h : beginsFactor cs = true) (ds : List Char) :
    beginsFactor (cs ++ ds) = true := by
  match cs, h with
  | c :: cs, h =>
    by_cases hc : c = '\\'
    · subst hc
      cases cs with
      | nil => exact absurd h (by decide)
      | cons d cs => exact h
    · rw [List.cons_append, beginsFactor_cons hc]
      rwa [beginsFactor_cons hc] at h

theorem ne_nil_of_beginsFactor {cs : List Char} (h : beginsFactor cs = true) : cs ≠ [] := by
  rintro rfl
  exact absurd h (by decide)

/-- The characters of a text in brackets. -/
theorem toList_bracketed (s : String) :
    (bracketed s).toList = "\\left(".toList ++ (s.toList ++ "\\right)".toList) := by
  rw [bracketed, String.toList_append, String.toList_append, List.append_assoc]

/-- The characters of a text in braces. -/
theorem toList_braced (s : String) : (braced s).toList = '\x7b' :: (s.toList ++ ['\x7d']) := by
  rw [braced, String.toList_append, String.toList_append, List.append_assoc]
  rfl

theorem beginsFactor_name {name : String} (h : LegibleName name) :
    beginsFactor name.toList = true := by
  obtain ⟨c, cs, hc, -, hName | hName⟩ := h
  · rw [hName]
    have hSlash : c ≠ '\\' := by
      rintro rfl
      exact absurd hc (by decide)
    rw [beginsFactor_cons hSlash, hc]
    simp
  · rw [hName]
    exact beginsFactor_append (by decide) _

theorem beginsFactor_call (f : NamedFunction) (s : String) :
    beginsFactor (f.latex s).toList = true := by
  unfold NamedFunction.latex
  split
  · rw [String.toList_append]
    exact beginsFactor_append (by decide) _
  · rw [String.toList_append, String.toList_append, List.append_assoc]
    exact beginsFactor_append (by decide) _
  · rename_i hRelu
    rw [String.toList_append]
    refine beginsFactor_append ?_ _
    cases f with
    | relu => exact absurd rfl hRelu
    | _ => decide

theorem Factor.beginsFactor_text {f : Factor} (h : f.Legible) :
    beginsFactor f.text.toList = true := by
  cases f with
  | symbol r =>
    rw [Factor.text, Reference.latex, String.toList_append, String.toList_append,
      List.append_assoc]
    exact beginsFactor_append (beginsFactor_name h.name) _
  -- A command is told from a numeral by its first character.
  | numeral digits =>
    obtain ⟨c, cs, hDigits, hc⟩ := IsNumeral.head h
    have hSlash : c ≠ '\\' := by
      rintro rfl
      exact absurd hc (by decide)
    rw [Factor.text, hDigits]
    rw [beginsFactor_cons hSlash, hc]
    simp
  | group e =>
    rw [Factor.text, toList_bracketed]
    exact beginsFactor_append (by decide) _
  | quotient lhs rhs =>
    rw [Factor.text, toList_braced]
    exact @beginsFactor_append ['\x7b'] (by decide) _
  | power base exponent =>
    rw [Factor.text, String.toList_append, String.toList_append, toList_braced]
    exact @beginsFactor_append ['\x7b'] (by decide) _
  | call f argument =>
    exact beginsFactor_call f _
  | indicator c lhs rhs =>
    rw [Factor.text]
    simp only [String.toList_append, List.append_assoc]
    exact beginsFactor_append (by decide) _
  | sum indices body =>
    rw [Factor.text]
    simp only [String.toList_append, List.append_assoc]
    exact beginsFactor_append (by decide) _

theorem Product.beginsFactor_text {p : Product} (h : p.Legible) :
    beginsFactor p.text.toList = true := by
  cases p with
  | last f => exact Factor.beginsFactor_text h
  | times f rest =>
    rw [Product.text, toList_juxtaposed, List.append_assoc]
    exact beginsFactor_append (Factor.beginsFactor_text h.1) _

theorem Formula.beginsFactor_unsigned {e : Formula} (h : e.Legible) :
    beginsFactor e.unsigned.toList = true := by
  cases e with
  | last negative p => exact Product.beginsFactor_text h
  | plus negative p rest =>
    rw [Formula.unsigned, String.toList_append, String.toList_append, List.append_assoc]
    exact beginsFactor_append (Product.beginsFactor_text h.1) _

/-- A minus sign in front is the sign of the first summand. -/
theorem Formula.startsWithMinus_text {e : Formula} (h : e.Legible) :
    startsWithMinus e.text = e.negative := by
  rw [startsWithMinus, Formula.text, String.toList_append, signText]
  cases hSign : e.negative with
  | true => rfl
  | false =>
    have hBegins := beginsFactor_unsigned h
    cases hChars : e.unsigned.toList with
    | nil => exact absurd hChars (ne_nil_of_beginsFactor hBegins)
    | cons c cs =>
      have hMinus : c ≠ '-' := by
        rintro rfl
        rw [hChars] at hBegins
        rw [beginsFactor_cons (by decide)] at hBegins
        exact absurd hBegins (by decide)
      simpa using hMinus

@[simp] theorem Formula.text_ofFactor (f : Factor) : (Formula.ofFactor f).text = f.text :=
  String.empty_append

theorem Formula.text_last_false (p : Product) : (Formula.last false p).text = p.text :=
  String.empty_append

/-- The text of factors with others behind them. -/
theorem Product.text_append {p : Product} (h : p.Legible) (q : Product) :
    (p.append q).text = juxtaposed p.text q.text :=
  match p with
  | .last _ => rfl
  | .times f p => by
    rw [Product.append, Product.text, text_append h.2.2 q, Product.text, juxtaposed_assoc]
    exact ne_nil_of_beginsFactor (beginsFactor_text h.2.2)

theorem Formula.unsigned_append (e d : Formula) :
    (e.append d).unsigned = e.unsigned ++ operatorText d.negative ++ d.unsigned :=
  match e with
  | .last _ _ => rfl
  | .plus _ p rest => by
    rw [Formula.append, Formula.unsigned, Formula.negative_append, unsigned_append rest d,
      Formula.unsigned]
    simp only [String.append_assoc]

/-- The text of summands with others behind them. -/
theorem Formula.text_append (e d : Formula) :
    (e.append d).text = e.text ++ operatorText d.negative ++ d.unsigned := by
  rw [Formula.text, negative_append, unsigned_append, Formula.text]
  simp only [String.append_assoc]

theorem Formula.text_product (e : Formula) :
    e.product.text = bracketedIf (e.strength < .product) e.text := by
  by_cases h : e.strength < .product
  · rw [product_of_lt h, bracketedIf, if_pos (by simpa using h)]
    rfl
  · rw [bracketedIf, if_neg (by simpa using h)]
    conv_rhs => rw [eq_last_product (Nat.not_lt.mp h)]
    exact String.empty_append.symm

theorem Formula.text_leftFactor (e : Formula) :
    e.leftFactor.text = bracketedIf (e.strength < .product || e.product.endsInSum) e.text := by
  unfold leftFactor
  split
  · rename_i hSum
    rw [hSum, Bool.or_true]
    rfl
  · rename_i hSum
    rw [text_product, Bool.eq_false_iff.mpr hSum, Bool.or_false]

/-- Behind a plus sign nothing but the brackets may change. -/
theorem Formula.text_addend {e : Formula} (h : e.Legible) :
    ArrayEquations.addend e.text = operatorText e.addend.negative ++ e.addend.unsigned := by
  rw [ArrayEquations.addend, startsWithMinus_text h, negative_addend]
  unfold addend
  cases hSign : e.negative with
  | true => rfl
  | false =>
    rw [Formula.text, hSign]
    exact congrArg _ String.empty_append

theorem Formula.text_atom (e : Formula) :
    e.atom.text = bracketedIf (e.strength < .atom) e.text := by
  unfold atom
  split
  · rename_i h
    rw [text_ofFactor, bracketedIf, if_pos (by simpa using h)]
    rfl
  · rename_i h
    rw [bracketedIf, if_neg (by simpa using h)]

end Written

end ArrayEquations
