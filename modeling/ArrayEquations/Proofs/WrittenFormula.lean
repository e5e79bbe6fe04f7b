import ArrayEquations.Proofs.WrittenSyntax

/-!
# ArrayEquations — how formulas are written

Every formula is written in one form of the grammar of texts, with brackets where the
strength of its parts asks for them. The form has the text that the formula is given, and
the value of the formula: no bracket that matters is left out.

## Main definitions

* `Expr.value` — the value of a formula.
* `Expr.Legible` — its names, numbers and indices can be read.
* `Expr.written` — the form in which it is written.

## Main results

* `Expr.text_written` — the form has the text of the formula.
* `Expr.value_written` — the form has the value of the formula.
-/

namespace ArrayEquations

namespace Expr

/-- Induction on formulas, with a list of summands at once. -/
@[elab_as_elim]
theorem inductionOn {motive : Expr → Prop} (e : Expr) (var : ∀ r, motive (.var r))
    (literal : ∀ x, motive (.literal x))
    (binary : ∀ op lhs rhs, motive lhs → motive rhs → motive (.binary op lhs rhs))
    (neg : ∀ e, motive e → motive (.neg e))
    (call : ∀ f argument, motive argument → motive (.call f argument))
    (indicator : ∀ c lhs rhs, motive lhs → motive rhs → motive (.indicator c lhs rhs))
    (sum : ∀ indices body, motive body → motive (.sum indices body))
    (terms : ∀ ts, (∀ t ∈ ts, motive t) → motive (.terms ts)) : motive e :=
  @Expr.rec motive (fun ts => ∀ t ∈ ts, motive t) var literal binary neg call indicator sum terms
    (fun _ h => absurd h List.not_mem_nil)
    (fun _ _ ht hts => List.forall_mem_cons.mpr ⟨ht, hts⟩) e

/-! ## Legible formulas -/

mutual

/-- Names are letters and digits, numbers are finite, letters of indices are letters, and there
are no sums of no terms. -/
def Legible : Expr → Prop
  | .var r => r.Legible
  | .literal x => FiniteNumber x
  | .binary _ lhs rhs => lhs.Legible ∧ rhs.Legible
  | .neg e => e.Legible
  | .call _ argument => argument.Legible
  | .indicator _ lhs rhs => lhs.Legible ∧ rhs.Legible
  | .sum indices body => LegibleIndices indices ∧ body.Legible
  | .terms ts => ts ≠ [] ∧ LegibleEach ts

/-- All of the formulas are legible. -/
def LegibleEach : List Expr → Prop
  | [] => True
  | t :: ts => t.Legible ∧ LegibleEach ts

end

/-! ## Values -/

section Value

variable {R : Type*} [CommRing R]

mutual

/-- The value of a formula. -/
def value (M : Meaning R) : Expr → Assignment → R
  | .var r, σ => M.array r.symbol (r.indices.map σ)
  | .literal x, _ => M.literal x
  | .binary op lhs rhs, σ => M.arith op (lhs.value M σ) (rhs.value M σ)
  | .neg e, σ => -e.value M σ
  | .call f argument, σ => M.call f (argument.value M σ)
  | .indicator c lhs rhs, σ => M.indicator c (lhs.value M σ) (rhs.value M σ)
  | .sum indices body, σ => sumOver (indices.map fun i => (i, M.extent i)) (body.value M) σ
  | .terms ts, σ => valueEach M ts σ

/-- The sum of the values of formulas. -/
def valueEach (M : Meaning R) : List Expr → Assignment → R
  | [], _ => 0
  | t :: ts, σ => t.value M σ + valueEach M ts σ

end

end Value

/-! ## The written form -/

open Written (Formula)

mutual

/-- The form in which a formula is written. -/
def written : Expr → Formula
  | .var r => .ofFactor (.symbol r)
  | .literal x => .last (isNegative x) (.last (.numeral (literalDigits x)))
  | .binary op lhs rhs =>
    let l := lhs.written
    let r := rhs.written
    match op with
    | .add => l.append r.addend
    | .sub => l.append (.last true r.product)
    | .mul => .last false (l.leftFactor.append r.product)
    | .div => .ofFactor (.quotient l r)
    | .pow => .ofFactor (.power l.atom r)
  | .neg e => .last true e.written.product
  | .call f argument => .ofFactor (.call f argument.written)
  | .indicator c lhs rhs => .ofFactor (.indicator c lhs.written rhs.written)
  | .sum indices body => .ofFactor (.sum indices body.written.product)
  | .terms [] => .ofFactor (.numeral "")
  | .terms (t :: ts) => writtenBehind t.written ts

/-- A form with the summands of more formulas behind it. -/
def writtenBehind (e : Formula) : List Expr → Formula
  | [] => e
  | t :: ts => writtenBehind (e.append t.written.addend) ts

end

theorem strength_writtenBehind (e : Formula) (t : Expr) (ts : List Expr) :
    (writtenBehind e (t :: ts)).strength = .sum := by
  induction ts generalizing e t with
  | nil =>
    rw [writtenBehind, writtenBehind]
    exact Formula.strength_append _ _
  | cons u ts ih =>
    rw [writtenBehind]
    exact ih _ u

/-- A formula is as strong as it looks. -/
theorem strength_written {e : Expr} : e.Legible → e.written.strength = e.strength := by
  induction e using Expr.inductionOn with
  | var r => exact fun _ => rfl
  | literal x =>
    intro _
    rw [written, strength]
    cases isNegative x <;> rfl
  | binary op lhs rhs _ _ =>
    intro _
    cases op with
    | add => exact Formula.strength_append _ _
    | sub => exact Formula.strength_append _ _
    | mul =>
      show (lhs.written.leftFactor.append rhs.written.product).strength = _
      cases lhs.written.leftFactor <;> rfl
    | div => rfl
    | pow => rfl
  | neg e _ => exact fun _ => rfl
  | call f argument _ => exact fun _ => rfl
  | indicator c lhs rhs _ _ => exact fun _ => rfl
  | sum indices body _ => exact fun _ => rfl
  -- One term is written as it is. Two or more are a sum, whatever the first one is.
  | terms ts ih =>
    intro h
    match ts with
    | [] => exact absurd rfl h.1
    | [t] => exact ih t (by simp) h.2.1
    | t :: u :: ts => exact strength_writtenBehind _ u ts

/-- What is no product ends in brackets as one. -/
theorem endsInSum_product_of_sum {d : Formula} (h : d.strength = .sum) :
    d.product.endsInSum = false := by
  rw [Formula.product_of_lt (h ▸ Nat.zero_lt_one)]
  rfl

/-- Whether a formula ends in a summation shows in its form. -/
theorem endsInSum_written {e : Expr} : e.Legible →
    e.written.product.endsInSum = (decide (Strength.product ≤ e.strength) && e.endsInSum) := by
  induction e using Expr.inductionOn with
  | var r => exact fun _ => rfl
  | literal x =>
    intro _
    have hSum : (literal x).endsInSum = false := rfl
    rw [hSum, Bool.and_false, written]
    cases isNegative x <;> rfl
  | binary op lhs rhs _ ihRhs =>
    intro h
    cases op with
    | add => exact endsInSum_product_of_sum (Formula.strength_append _ _)
    | sub => exact endsInSum_product_of_sum (Formula.strength_append _ _)
    | mul =>
      rw [written]
      exact (Written.Product.endsInSum_append _ _).trans (ihRhs h.2)
    | div => rfl
    | pow => rfl
  | neg e _ => exact fun _ => rfl
  | call f argument _ => exact fun _ => rfl
  | indicator c lhs rhs _ _ => exact fun _ => rfl
  | sum indices body _ => exact fun _ => rfl
  | terms ts ih =>
    intro h
    match ts with
    | [] => exact absurd rfl h.1
    | [t] => exact ih t (by simp) h.2.1
    | t :: u :: ts => exact endsInSum_product_of_sum (strength_writtenBehind _ u ts)

/-! ### Legible forms -/

theorem legible_writtenBehind {d : Formula} (hd : d.Legible) {ts : List Expr}
    (h : ∀ t ∈ ts, t.written.Legible) : (writtenBehind d ts).Legible := by
  induction ts generalizing d with
  | nil => exact hd
  | cons t ts ih =>
    rw [List.forall_mem_cons] at h
    exact ih (hd.append h.1.addend) h.2

theorem legibleEach_iff {ts : List Expr} : LegibleEach ts ↔ ∀ t ∈ ts, t.Legible := by
  induction ts with
  | nil => simp [LegibleEach]
  | cons t ts ih => rw [LegibleEach, ih, List.forall_mem_cons]

/-- A legible formula has a legible form. -/
theorem Legible.written {e : Expr} : e.Legible → e.written.Legible := by
  induction e using Expr.inductionOn with
  | var r => exact fun h => h
  | literal x => exact fun h => isNumeral_literalDigits h
  | binary op lhs rhs ihLhs ihRhs =>
    intro h
    have hL := ihLhs h.1
    have hR := ihRhs h.2
    cases op with
    | add => exact hL.append hR.addend
    | sub => exact hL.append hR.product
    | mul => exact hL.leftFactor.1.append hL.leftFactor.2 hR.product
    | div => exact ⟨hL, hR⟩
    | pow => exact ⟨hL.atom, hR⟩
  | neg e ih => exact fun h => (ih h).product
  | call f argument ih => exact ih
  | indicator c lhs rhs ihLhs ihRhs => exact fun h => ⟨ihLhs h.1, ihRhs h.2⟩
  | sum indices body ih => exact fun h => ⟨h.1, (ih h.2).product⟩
  | terms ts ih =>
    intro h
    have hEach := legibleEach_iff.mp h.2
    match ts with
    | [] => exact absurd rfl h.1
    | t :: ts =>
      have hAll : ∀ u ∈ t :: ts, u.written.Legible := fun u hu => ih u hu (hEach u hu)
      rw [List.forall_mem_cons] at hAll
      exact legible_writtenBehind hAll.1 hAll.2

/-! ### The text of the form -/

theorem text_writtenBehind {ts : List Expr} (h : ∀ t ∈ ts, t.Legible)
    (hText : ∀ t ∈ ts, t.written.text = latex t) (d : Formula) :
    (writtenBehind d ts).text = d.text ++ latexAddends ts := by
  induction ts generalizing d with
  | nil => exact String.append_empty.symm
  | cons t ts ih =>
    rw [List.forall_mem_cons] at h hText
    rw [writtenBehind, ih h.2 hText.2, latexAddends, ← hText.1, Formula.text_addend h.1.written,
      Formula.text_append]
    simp only [String.append_assoc]

/-- A subtrahend is in brackets as a factor would be. -/
theorem text_product_written {e : Expr} (h : e.Legible) (hText : e.written.text = latex e) :
    e.written.product.text = bracketedIf (e.strength ≤ .sum) (latex e) := by
  have hLess : decide (e.strength < .product) = decide (e.strength ≤ .sum) :=
    decide_eq_decide.mpr Nat.lt_succ_iff
  rw [Formula.text_product, strength_written h, hLess, hText]

theorem text_leftFactor_written {e : Expr} (h : e.Legible) (hText : e.written.text = latex e) :
    e.written.leftFactor.text =
      bracketedIf (e.strength < .product || e.endsInSum) (latex e) := by
  rw [Formula.text_leftFactor, strength_written h, endsInSum_written h, hText]
  by_cases hLess : e.strength < .product
  · rw [decide_eq_true hLess, Bool.true_or, Bool.true_or]
  · have hLe : Strength.product ≤ e.strength := Nat.not_lt.mp hLess
    rw [decide_eq_true hLe, Bool.true_and]

/-- **The form has the text of the formula.** -/
theorem text_written {e : Expr} : e.Legible → e.written.text = latex e := by
  induction e using Expr.inductionOn with
  | var r =>
    intro _
    rw [written, latex]
    exact Formula.text_ofFactor _
  | literal x =>
    intro h
    rw [latex, literalText_eq h]
    rfl
  | binary op lhs rhs ihLhs ihRhs =>
    intro h
    have hL := ihLhs h.1
    have hR := ihRhs h.2
    cases op with
    | add =>
      show (lhs.written.append rhs.written.addend).text = latex lhs ++ addend (latex rhs)
      rw [Formula.text_append, hL, ← hR, Formula.text_addend h.2.written, String.append_assoc]
    | sub =>
      show (lhs.written.append (.last true rhs.written.product)).text =
        latex lhs ++ " - " ++ bracketedIf (rhs.strength ≤ .sum) (latex rhs)
      rw [Formula.text_append, hL, ← text_product_written h.2 hR]
      rfl
    | mul =>
      show (Formula.last false (lhs.written.leftFactor.append rhs.written.product)).text =
        juxtaposed (bracketedIf (lhs.strength < .product || lhs.endsInSum) (latex lhs))
          (bracketedIf (rhs.strength < .product) (latex rhs))
      rw [Formula.text_last_false, Written.Product.text_append h.1.written.leftFactor.1,
        text_leftFactor_written h.1 hL, Formula.text_product, strength_written h.2, hR]
    | div =>
      show (Formula.ofFactor (.quotient lhs.written rhs.written)).text =
        braced (latex lhs ++ " \\over " ++ latex rhs)
      rw [Formula.text_ofFactor, ← hL, ← hR]
      rfl
    | pow =>
      show (Formula.ofFactor (.power lhs.written.atom rhs.written)).text =
        braced (bracketedIf (lhs.strength < .atom) (latex lhs)) ++ "^" ++ braced (latex rhs)
      rw [Formula.text_ofFactor, ← hL, ← hR, ← strength_written h.1, ← Formula.text_atom]
      rfl
  | neg e ih =>
    intro h
    have hOperand : e.Legible := h
    rw [latex, ← text_product_written hOperand (ih hOperand)]
    rfl
  | call f argument ih =>
    intro h
    rw [latex, ← ih h, written, Formula.text_ofFactor]
    rfl
  | indicator c lhs rhs ihLhs ihRhs =>
    intro h
    rw [latex, ← ihLhs h.1, ← ihRhs h.2, written, Formula.text_ofFactor]
    rfl
  | sum indices body ih =>
    intro h
    rw [latex, ← ih h.2, ← strength_written h.2, ← Formula.text_product, written,
      Formula.text_ofFactor]
    rfl
  | terms ts ih =>
    intro h
    -- Each term behind the first is written with its sign, which `text_writtenBehind` collects.
    have hEach := legibleEach_iff.mp h.2
    match ts with
    | [] => exact absurd rfl h.1
    | t :: ts =>
      have hAll : ∀ u ∈ t :: ts, u.written.text = latex u := fun u hu => ih u hu (hEach u hu)
      rw [List.forall_mem_cons] at hAll hEach
      rw [written, text_writtenBehind hEach.2 hAll.2, hAll.1, latex]

/-! ### The value of the form -/

section Value

variable {R : Type*} [CommRing R]

/-- Numbers have the values that their texts are read as, and a minus sign in front of a text
negates what it is read as. -/
structure ReadsBack (M : Meaning R) (read : String → R) : Prop where
  literal_eq : ∀ x, FiniteNumber x → M.literal x = read (literalText x)
  minus : ∀ s, read ("-" ++ s) = -read s

variable {M : Meaning R} {read : String → R}

theorem value_literal (hRead : ReadsBack M read) {x : Float} (hx : FiniteNumber x) :
    M.literal x = Written.signed (isNegative x) (read (literalDigits x)) := by
  rw [hRead.literal_eq x hx, literalText_eq hx]
  cases isNegative x with
  | true => exact hRead.minus _
  | false => exact congrArg read String.empty_append

theorem value_writtenBehind {ts : List Expr} (σ : Assignment)
    (h : ∀ t ∈ ts, t.written.value M read σ = t.value M σ) (d : Formula) :
    (writtenBehind d ts).value M read σ = d.value M read σ + valueEach M ts σ := by
  induction ts generalizing d with
  | nil => rw [writtenBehind, valueEach, add_zero]
  | cons t ts ih =>
    rw [List.forall_mem_cons] at h
    rw [writtenBehind, ih h.2, Formula.value_append, Formula.value_addend, h.1, valueEach,
      add_assoc]

/-- **The form has the value of the formula.** -/
theorem value_written (hRead : ReadsBack M read) {e : Expr} :
    e.Legible → ∀ σ, e.written.value M read σ = e.value M σ := by
  induction e using Expr.inductionOn with
  | var r => exact fun _ _ => rfl
  | literal x => exact fun h _ => (value_literal hRead h).symm
  | binary op lhs rhs ihLhs ihRhs =>
    intro h σ
    have hL := ihLhs h.1 σ
    have hR := ihRhs h.2 σ
    rw [value, ← hL, ← hR]
    cases op with
    | add =>
      show (lhs.written.append rhs.written.addend).value M read σ = _
      rw [Formula.value_append, Formula.value_addend]
      rfl
    | sub =>
      show (lhs.written.append (.last true rhs.written.product)).value M read σ = _
      rw [Formula.value_append]
      show _ + -(rhs.written.product.value M read σ) = _ - _
      rw [Formula.value_product, sub_eq_add_neg]
    | mul =>
      show (lhs.written.leftFactor.append rhs.written.product).value M read σ = _
      rw [Written.Product.value_append, Formula.value_leftFactor, Formula.value_product]
      rfl
    | div => rfl
    | pow =>
      show M.pow (lhs.written.atom.value M read σ) (rhs.written.value M read σ) = _
      rw [Formula.value_atom]
      rfl
  | neg e ih =>
    intro h σ
    show -(e.written.product.value M read σ) = -e.value M σ
    rw [Formula.value_product, ih h]
  | call f argument ih =>
    intro h σ
    show M.call f (argument.written.value M read σ) = M.call f (argument.value M σ)
    rw [ih h]
  | indicator c lhs rhs ihLhs ihRhs =>
    intro h σ
    show M.indicator c (lhs.written.value M read σ) (rhs.written.value M read σ) = _
    rw [ihLhs h.1, ihRhs h.2]
    rfl
  | sum indices body ih =>
    intro h σ
    -- The body is evaluated at many assignments, so the two values agree as functions.
    have hBody : body.written.product.value M read = body.value M := by
      funext τ
      rw [Formula.value_product, ih h.2]
    show sumOver _ (body.written.product.value M read) σ = sumOver _ (body.value M) σ
    rw [hBody]
  | terms ts ih =>
    intro h σ
    have hEach := legibleEach_iff.mp h.2
    match ts with
    | [] => exact absurd rfl h.1
    | t :: ts =>
      have hAll : ∀ u ∈ t :: ts, u.written.value M read σ = u.value M σ :=
        fun u hu => ih u hu (hEach u hu) σ
      rw [List.forall_mem_cons] at hAll
      rw [written, value_writtenBehind σ hAll.2, hAll.1]
      rfl

end Value

end Expr

end ArrayEquations
