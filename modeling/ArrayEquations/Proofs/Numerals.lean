import Mathlib.Data.List.Basic
import ArrayEquations.Decimal

/-!
# ArrayEquations — the form of numerals

The text of a finite number in a formula: a minus sign if the number is negative, then
digits, possibly with a point between two of them.

## Main definitions

* `FiniteNumber` — a number that is neither infinite nor undefined.
* `IsNumeral` — the form of a number without a sign.
* `literalDigits` — the text of a number from behind its sign.

## Main results

* `literalText_eq`, `isNumeral_literalDigits` — the text of a finite number.
-/

namespace ArrayEquations

/-- A number that is neither infinite nor undefined. -/
def FiniteNumber (x : Float) : Prop :=
  ∃ negative mantissa exponent, floatParts x = .finite negative mantissa exponent

/-- Digits, possibly with a point between two of them. -/
structure IsNumeral (s : String) : Prop where
  chars : ∀ c ∈ s.toList, c.isDigit ∨ c = '.'
  head : ∃ c cs, s.toList = c :: cs ∧ c.isDigit
  last : ∃ c, s.toList.getLast? = some c ∧ c.isDigit

/-! ## Digits and letters -/

/-- A run of characters of a kind ends where the rest begins with none. -/
theorem takeWhile_append_rest {p : Char → Bool} {cs rest : List Char} (h : ∀ c ∈ cs, p c)
    (hRest : ∀ c ∈ rest.head?, p c = false) :
    (cs ++ rest).takeWhile p = cs ∧ (cs ++ rest).dropWhile p = rest := by
  rw [List.takeWhile_append_of_pos h, List.dropWhile_append_of_pos h]
  cases rest with
  | nil => exact ⟨List.append_nil cs, rfl⟩
  | cons c rest =>
    have hc : p c = false := hRest c rfl
    rw [List.takeWhile_cons_of_neg (by simp [hc]), List.dropWhile_cons_of_neg (by simp [hc])]
    exact ⟨List.append_nil cs, rfl⟩

/-- The code points of letters. -/
theorem isAlpha_iff (c : Char) : c.isAlpha ↔
    (0x41 ≤ c.toNat ∧ c.toNat ≤ 0x5A) ∨ (0x61 ≤ c.toNat ∧ c.toNat ≤ 0x7A) := by
  have hUnfold : c.isAlpha = (decide ('A'.val ≤ c.val ∧ c.val ≤ 'Z'.val) ||
    decide ('a'.val ≤ c.val) && decide (c.val ≤ 'z'.val)) := rfl
  simp only [hUnfold, Bool.or_eq_true, Bool.and_eq_true, decide_eq_true_eq,
    UInt32.le_iff_toNat_le]
  exact Iff.rfl

/-- The code points of digits. -/
theorem isDigit_iff (c : Char) : c.isDigit ↔ 0x30 ≤ c.toNat ∧ c.toNat ≤ 0x39 := by
  have hUnfold : c.isDigit = (decide ('0'.val ≤ c.val) && decide (c.val ≤ '9'.val)) := rfl
  simp only [hUnfold, Bool.and_eq_true, decide_eq_true_eq, UInt32.le_iff_toNat_le]
  exact Iff.rfl

theorem not_isDigit_of_isAlpha {c : Char} (h : c.isAlpha) : ¬ c.isDigit := by
  rw [isDigit_iff]
  have hRange := (isAlpha_iff c).mp h
  omega

theorem isDigit_of_mem_digitsOf {n : Nat} {c : Char} (h : c ∈ digitsOf n) : c.isDigit :=
  Nat.isDigit_of_mem_toDigits (by decide) (by decide) h

theorem isDigit_of_mem_zeros {n : Nat} {c : Char} (h : c ∈ zeros n) : c.isDigit := by
  rw [List.eq_of_mem_replicate h]
  decide

/-- Digits before and after the point make a numeral, where there have to be some before it. -/
theorem isNumeral_of_digits {whole fraction : List Char} (hWhole : whole ≠ [])
    (hDigits : ∀ c ∈ whole ++ fraction, c.isDigit) :
    IsNumeral (String.ofList
      (whole ++ (if fraction.isEmpty then [] else '.' :: fraction))) := by
  obtain ⟨c, cs, rfl⟩ := List.exists_cons_of_ne_nil hWhole
  have hFirst : c.isDigit := hDigits c (by simp)
  refine ⟨?_, ⟨c, cs ++ _, String.toList_ofList, hFirst⟩, ?_⟩
  · rw [String.toList_ofList]
    intro d hd
    rw [List.mem_append] at hd
    rcases hd with hd | hd
    · exact Or.inl (hDigits d (List.mem_append_left _ hd))
    · split at hd
      · exact absurd hd (by simp)
      · rcases List.mem_cons.mp hd with rfl | hd
        · exact Or.inr rfl
        · exact Or.inl (hDigits d (List.mem_append_right _ hd))
  · rw [String.toList_ofList]
    -- The last character is a digit of the fraction, or, without one, of the whole part.
    cases hFraction : fraction with
    | nil =>
      refine ⟨(c :: cs).getLast (by simp), ?_, hDigits _ ?_⟩
      · rw [List.isEmpty_nil, if_pos rfl, List.append_nil, List.getLast?_eq_some_getLast]
      · exact List.mem_append_left _ (List.getLast_mem _)
    | cons d ds =>
      refine ⟨(d :: ds).getLast (by simp), ?_, hDigits _ ?_⟩
      · rw [List.isEmpty_cons, if_neg (by simp), List.getLast?_append_of_ne_nil _ (by simp),
          List.getLast?_cons_cons, List.getLast?_eq_some_getLast]
      · rw [hFraction]
        exact List.mem_append_right _ (List.getLast_mem _)

/-- A numeral without an exponent is a sign and the digits around the point. -/
theorem Numeral.text_of_exponent_none {n : Numeral} (hExponent : n.exponent = none) :
    n.text = signText n.negative ++ String.ofList
      (n.whole ++ (if n.fraction.isEmpty then [] else '.' :: n.fraction)) := by
  apply String.toList_inj.mp
  rw [Numeral.text, Numeral.chars, hExponent, Numeral.exponentChars, String.toList_append,
    String.toList_ofList, String.toList_ofList, List.append_nil, List.append_assoc]
  cases n.negative <;> rfl

/-! ## Decimals -/

theorem Decimal.positional_parts (negative : Bool) (d : Decimal) :
    (d.positional negative).negative = negative ∧ (d.positional negative).exponent = none ∧
      (d.positional negative).whole ≠ [] ∧
      ∀ c ∈ (d.positional negative).whole ++ (d.positional negative).fraction, c.isDigit := by
  unfold positional
  split
  · refine ⟨rfl, rfl, by simp [digitsOf], ?_⟩
    intro c hc
    rcases List.mem_append.mp (List.append_nil _ ▸ hc) with hc | hc
    · exact isDigit_of_mem_digitsOf hc
    · exact isDigit_of_mem_zeros hc
  · rename_i e _
    refine ⟨rfl, rfl, ?_, ?_⟩
    · -- There are more digits than places behind the point.
      simp only [pointed]
      intro hNil
      have hLength := congrArg List.length hNil
      simp only [List.length_take, List.length_append, zeros, List.length_replicate,
        List.length_nil] at hLength
      omega
    · simp only [pointed, List.take_append_drop]
      intro c hc
      rcases List.mem_append.mp hc with hc | hc
      · exact isDigit_of_mem_zeros hc
      · exact isDigit_of_mem_digitsOf hc

theorem plainText_of_ne_zero {x : Float} {negative : Bool} {mantissa : Nat} {exponent : Int}
    (h : floatParts x = .finite negative mantissa exponent) (hMantissa : mantissa ≠ 0) :
    ∃ digits, IsNumeral digits ∧ plainText x = signText negative ++ digits := by
  obtain ⟨hNegative, hExponent, hWhole, hDigits⟩ :=
    ((shortestDecimal .away mantissa exponent).positional_parts negative)
  refine ⟨_, isNumeral_of_digits hWhole hDigits, ?_⟩
  unfold plainText
  rw [h]
  split
  · exact absurd ‹_› (by simp)
  · exact absurd ‹_› (by simp)
  · rename_i hParts
    injection hParts with _ hZero
    exact absurd hZero hMantissa
  · rename_i hParts
    injection hParts with hN hM hE
    subst hN hM hE
    rw [Numeral.text_of_exponent_none hExponent, hNegative]

/-! ## Whole numbers -/

theorem wholeMagnitude?_eq_zero_iff {mantissa : Nat} {exponent : Int} {n : Nat}
    (h : wholeMagnitude? mantissa exponent = some n) : n = 0 ↔ mantissa = 0 := by
  unfold wholeMagnitude? at h
  split at h
  · rename_i e
    obtain rfl := Option.some.inj h
    have hPos : Nat.pow 2 e ≠ 0 := Nat.ne_of_gt (Nat.pow_pos (by decide))
    rw [Nat.mul_eq_zero, or_iff_left hPos]
  · simp only at h
    split at h
    · rename_i hMod
      obtain rfl := Option.some.inj h
      -- The division is exact, so a quotient of zero needs a mantissa of zero.
      rw [Nat.div_eq_zero_iff]
      constructor
      · rintro (hZero | hLt)
        · exact absurd hZero (by simp)
        · rwa [Nat.mod_eq_of_lt hLt] at hMod
      · rintro rfl
        exact Or.inr (Nat.pos_of_ne_zero (by simp))
    · exact absurd h (by simp)

theorem isNumeral_repr (n : Nat) : IsNumeral n.repr := by
  have h := @isNumeral_of_digits (digitsOf n) [] (by simp [digitsOf])
    (fun c hc => isDigit_of_mem_digitsOf (by simpa using hc))
  rw [Nat.repr_eq_ofList_toDigits]
  simpa [digitsOf] using h

/-- The text of a whole number. -/
theorem toString_signed (negative : Bool) (n : Nat) :
    toString (if negative then -(n : Int) else n) = signText (negative && n != 0) ++ n.repr := by
  rw [Int.toString_eq_repr, Int.repr_eq_if]
  cases negative with
  | false => simp [signText]
  | true =>
    by_cases hn : n = 0
    · subst hn
      rfl
    · have hNeg : ¬ (0 ≤ -(n : Int)) := by omega
      rw [if_pos rfl, if_neg hNeg, Int.neg_neg, Int.toNat_natCast]
      simp [signText, hn]

/-! ## Literals -/

/-- The text of a finite number: a sign if it is negative, and a numeral. -/
theorem exists_literalText {x : Float} (h : FiniteNumber x) :
    ∃ digits, IsNumeral digits ∧ literalText x = signText (isNegative x) ++ digits := by
  obtain ⟨negative, mantissa, exponent, hParts⟩ := h
  have hNegative : isNegative x = (negative && mantissa != 0) := by
    rw [isNegative, hParts]
  -- Zero has a text of its own; other numbers are written out or with an exponent.
  have hPlain : mantissa ≠ 0 →
      ∃ digits, IsNumeral digits ∧ plainText x = signText (isNegative x) ++ digits := by
    intro hMantissa
    rw [hNegative, bne_iff_ne.mpr hMantissa, Bool.and_true]
    exact plainText_of_ne_zero hParts hMantissa
  unfold literalText
  rw [integerValue?, hParts]
  simp only
  cases hWhole : wholeMagnitude? mantissa exponent with
  | none =>
    refine hPlain ?_
    rintro rfl
    exact absurd hWhole (by unfold wholeMagnitude?; split <;> simp)
  | some n =>
    -- A whole number that is small enough is written as such, with its own sign.
    have hZero := wholeMagnitude?_eq_zero_iff hWhole
    have hText := toString_signed negative n
    have hMagnitude : (if negative then -(n : Int) else n).natAbs = n := by
      cases negative <;> simp
    show ∃ digits, IsNumeral digits ∧
      (if (if negative then -(n : Int) else n).natAbs < Nat.pow 10 15 then
        toString (if negative then -(n : Int) else n) else plainText x) = _
    rw [hMagnitude, hText]
    by_cases hSmall : n < Nat.pow 10 15
    · rw [if_pos hSmall]
      refine ⟨n.repr, isNumeral_repr n, ?_⟩
      rw [hNegative]
      simp only [bne, beq_eq_beq.mpr hZero]
    · rw [if_neg hSmall]
      refine hPlain fun hMantissa => hSmall ?_
      rw [hZero.mpr hMantissa]
      decide

/-- The text of a number from behind its sign. -/
def literalDigits (x : Float) : String :=
  if isNegative x then String.ofList (literalText x).toList.tail else literalText x

theorem literalText_eq {x : Float} (h : FiniteNumber x) :
    literalText x = signText (isNegative x) ++ literalDigits x := by
  obtain ⟨digits, -, hText⟩ := exists_literalText h
  rw [literalDigits]
  split
  · rename_i hNegative
    rw [hText, hNegative]
    apply String.toList_inj.mp
    simp [signText]
  · rename_i hNegative
    rw [Bool.eq_false_iff.mpr hNegative]
    exact String.empty_append.symm

theorem isNumeral_literalDigits {x : Float} (h : FiniteNumber x) :
    IsNumeral (literalDigits x) := by
  obtain ⟨digits, hDigits, hText⟩ := exists_literalText h
  have hEq : literalDigits x = digits := by
    have hBoth := (literalText_eq h).symm.trans hText
    apply String.toList_inj.mp
    simpa [String.ext_iff] using hBoth
  rw [hEq]
  exact hDigits

end ArrayEquations
