import ArrayEquations.Json.Decode
import ArrayEquations.Proofs.Numerals

/-!
# ArrayEquations — numerals of documents

A numeral is read back from its characters if no digit is missing and its first digit is not
an idle zero. The numerals that documents are written with are such: those of natural
numbers, and those of finite binary64 numbers in either layout.

Which number a numeral stands for is another question. For natural numbers of 64 bits it is
answered here; for binary64 numbers `ExactInDocument` says that it is the right one.

## Main definitions

* `Numeral.Legible` — the form of a numeral.
* `EndsNumeral` — a text that does not go on with a numeral.
* `ExactInDocument` — the numeral of a number stands for it.

## Main results

* `readNumeral_chars` — a legible numeral is read back.
* `Numeral.inDocument?_ofNat` — the numeral of a natural number stands for it.
* `legible_documentNumeral` — numerals of finite numbers are legible.
-/

namespace ArrayEquations

/-- A digit stands wherever one has to, and the first one is a zero only if it is alone. -/
structure Numeral.Legible (n : Numeral) : Prop where
  whole_ne_nil : n.whole ≠ []
  whole_digits : ∀ c ∈ n.whole, c.isDigit
  leading : n.whole.head? = some '0' → n.whole.length = 1
  fraction_digits : ∀ c ∈ n.fraction, c.isDigit
  exponent_ne_nil : ∀ x ∈ n.exponent, x.2 ≠ []
  exponent_digits : ∀ x ∈ n.exponent, ∀ c ∈ x.2, c.isDigit

/-- The text does not begin with more of a numeral. -/
def EndsNumeral (rest : List Char) : Prop :=
  ∀ c ∈ rest.head?, c.isDigit = false ∧ c ≠ '.' ∧ c ≠ 'e' ∧ c ≠ 'E'

theorem endsNumeral_nil : EndsNumeral [] := by
  intro c hc
  exact absurd hc (by simp)

theorem endsNumeral_cons {c : Char} {rest : List Char}
    (h : c.isDigit = false ∧ c ≠ '.' ∧ c ≠ 'e' ∧ c ≠ 'E') : EndsNumeral (c :: rest) := by
  intro d hd
  obtain rfl := Option.some.inj hd
  exact h

theorem ne_of_isDigit {c d : Char} (h : c.isDigit) (hd : d.isDigit = false) : c ≠ d := by
  rintro rfl
  rw [h] at hd
  exact Bool.noConfusion hd

/-! ## Reading numerals -/

/-- An exponent is read back. -/
theorem readExponent_exponentChars {exponent : Option (Bool × List Char)} {rest : List Char}
    (hNonempty : ∀ x ∈ exponent, x.2 ≠ []) (hDigits : ∀ x ∈ exponent, ∀ c ∈ x.2, c.isDigit)
    (hRest : EndsNumeral rest) :
    readExponent (Numeral.exponentChars exponent ++ rest) = some (exponent, rest) := by
  cases exponent with
  | none =>
    cases rest with
    | nil => rfl
    | cons c rest =>
      -- Without an exponent, what comes next must not look like the beginning of one.
      obtain ⟨-, -, hLower, hUpper⟩ := hRest c rfl
      have hLetter : ¬ (decide (c = 'e') || decide (c = 'E')) = true := by simp [hLower, hUpper]
      exact if_neg hLetter
  | some x =>
    obtain ⟨negative, digits⟩ := x
    have hEnd : ∀ c ∈ rest.head?, c.isDigit = false := fun c hc => (hRest c hc).1
    obtain ⟨hTake, hDrop⟩ := takeWhile_append_rest (hDigits _ rfl) hEnd
    have hSome : digits.isEmpty = false := by simpa using hNonempty _ rfl
    cases negative with
    | true =>
      show readExponent ('e' :: '-' :: (digits ++ rest)) = _
      simp [readExponent, hTake, hDrop, hSome]
    | false =>
      show readExponent ('e' :: '+' :: (digits ++ rest)) = _
      simp [readExponent, hTake, hDrop, hSome]

/-- The digits behind a point are read back. -/
theorem readFraction_chars {fraction rest : List Char} (hDigits : ∀ c ∈ fraction, c.isDigit)
    (hRest : ∀ c ∈ rest.head?, c.isDigit = false ∧ c ≠ '.') :
    readFraction ((if fraction.isEmpty then [] else '.' :: fraction) ++ rest) =
      some (fraction, rest) := by
  by_cases hEmpty : fraction.isEmpty = true
  · obtain rfl := List.isEmpty_iff.mp hEmpty
    cases rest with
    | nil => rfl
    | cons c rest =>
      -- An empty fraction has no point either, and what comes next is none.
      obtain ⟨-, hPoint⟩ := hRest c rfl
      show readFraction (c :: rest) = _
      unfold readFraction
      split
      · rename_i hEq
        exact absurd (List.cons.inj hEq).1 hPoint
      · rfl
  · obtain ⟨hTake, hDrop⟩ := takeWhile_append_rest hDigits fun c hc => (hRest c hc).1
    rw [if_neg hEmpty]
    show readFraction ('.' :: (fraction ++ rest)) = _
    rw [readFraction, hTake, hDrop, if_neg hEmpty]

/-- Reads a numeral behind its sign. -/
def readUnsigned (negative : Bool) (cs : List Char) : Option (Numeral × List Char) := do
  let whole := cs.takeWhile Char.isDigit
  if whole.isEmpty || (whole.length ≠ 1 && whole.head? == some '0') then none
  let (fraction, cs) ← readFraction (cs.dropWhile Char.isDigit)
  let (exponent, cs) ← readExponent cs
  return (⟨negative, whole, fraction, exponent⟩, cs)

theorem readNumeral_minus (cs : List Char) : readNumeral ('-' :: cs) = readUnsigned true cs := rfl

theorem readNumeral_of_ne {c : Char} (h : c ≠ '-') (cs : List Char) :
    readNumeral (c :: cs) = readUnsigned false (c :: cs) := by
  simp [readNumeral, readUnsigned, h]

/-- A legible numeral is read back from behind its sign. -/
theorem readUnsigned_chars {n : Numeral} (h : n.Legible) {rest : List Char}
    (hRest : EndsNumeral rest) :
    readUnsigned n.negative (n.whole ++ ((if n.fraction.isEmpty then [] else '.' :: n.fraction) ++
      (Numeral.exponentChars n.exponent ++ rest))) = some (n, rest) := by
  have hExponent := readExponent_exponentChars h.exponent_ne_nil h.exponent_digits hRest
  -- What stands behind the fraction is an exponent, or what follows the numeral.
  have hBehind : ∀ c ∈ (Numeral.exponentChars n.exponent ++ rest).head?,
      c.isDigit = false ∧ c ≠ '.' := by
    cases n.exponent with
    | none => exact fun c hc => ⟨(hRest c hc).1, (hRest c hc).2.1⟩
    | some x =>
      intro c hc
      obtain rfl : 'e' = c := Option.some.inj hc
      exact ⟨rfl, by decide⟩
  have hFraction := readFraction_chars h.fraction_digits hBehind
  have hPoint : ∀ c ∈ ((if n.fraction.isEmpty then [] else '.' :: n.fraction) ++
      (Numeral.exponentChars n.exponent ++ rest)).head?, c.isDigit = false := by
    split
    · exact fun c hc => (hBehind c hc).1
    · intro c hc
      obtain rfl : '.' = c := Option.some.inj hc
      rfl
  obtain ⟨hTake, hDrop⟩ := takeWhile_append_rest h.whole_digits hPoint
  have hNonempty : n.whole.isEmpty = false := by simpa using h.whole_ne_nil
  have hLeading :
      ¬ (n.whole.isEmpty || (n.whole.length ≠ 1 && n.whole.head? == some '0')) = true := by
    by_cases hZero : n.whole.head? = some '0'
    · simp [hNonempty, h.leading hZero]
    · simp [hNonempty, hZero]
  unfold readUnsigned
  simp only [hTake, hDrop, hFraction]
  rw [if_neg hLeading]
  simp only [Option.bind_eq_bind, Option.bind_some, hExponent]
  rfl

/-- **A legible numeral is read back from its characters.** -/
theorem readNumeral_chars {n : Numeral} (h : n.Legible) {rest : List Char}
    (hRest : EndsNumeral rest) : readNumeral (n.chars ++ rest) = some (n, rest) := by
  have hUnsigned := readUnsigned_chars h hRest
  rw [Numeral.chars, List.append_assoc, List.append_assoc, List.append_assoc]
  by_cases hNegative : n.negative = true
  · rw [if_pos hNegative]
    rw [hNegative] at hUnsigned
    exact (readNumeral_minus _).trans hUnsigned
  · rw [if_neg hNegative, List.nil_append]
    rw [Bool.not_eq_true] at hNegative
    rw [hNegative] at hUnsigned
    obtain ⟨c, cs, hWhole⟩ := List.exists_cons_of_ne_nil h.whole_ne_nil
    rw [hWhole, List.cons_append] at hUnsigned ⊢
    have hMinus : c ≠ '-' := ne_of_isDigit (h.whole_digits c (by simp [hWhole])) rfl
    exact (readNumeral_of_ne hMinus _).trans hUnsigned

/-! ## Natural numbers -/

/-- Only the digits of zero begin with a zero. -/
theorem eq_zero_of_head?_digitsOf {n : Nat} (h : (digitsOf n).head? = some '0') : n = 0 := by
  induction n using Nat.strongRecOn with
  | ind n ih =>
    unfold digitsOf at h ih
    rw [Nat.toDigits_eq_if (by decide)] at h
    split at h
    · simpa using h
    · rename_i hLarge
      -- The first digit is that of a smaller number, which is not zero.
      rw [List.head?_append_of_ne_nil _ Nat.toDigits_ne_nil] at h
      have hZero := ih (n / 10) (by omega) h
      omega

theorem Numeral.legible_ofNat (n : Nat) : (Numeral.ofNat n).Legible where
  whole_ne_nil := Nat.toDigits_ne_nil
  whole_digits _ hc := isDigit_of_mem_digitsOf hc
  leading h := by
    obtain rfl := eq_zero_of_head?_digitsOf h
    rfl
  fraction_digits _ hc := absurd hc List.not_mem_nil
  exponent_ne_nil _ hx := absurd hx (by simp [Numeral.ofNat])
  exponent_digits _ hx := absurd hx (by simp [Numeral.ofNat])

/-- More digits make a number larger. -/
theorem le_foldl_digitValue (n : Nat) (cs : List Char) :
    n ≤ cs.foldl (fun n c => 10 * n + digitValue c) n := by
  induction cs generalizing n with
  | nil => exact Nat.le_refl n
  | cons c cs ih =>
    have hStep := ih (10 * n + digitValue c)
    rw [List.foldl_cons]
    omega

/-- Digits that do not overflow are all taken. -/
theorem extendDigits_eq {n : Nat} {cs : List Char}
    (h : cs.foldl (fun n c => 10 * n + digitValue c) n < wordBound) :
    extendDigits n cs = (cs.foldl (fun n c => 10 * n + digitValue c) n, []) := by
  induction cs generalizing n with
  | nil => rfl
  | cons c cs ih =>
    have hNext : 10 * n + digitValue c < wordBound :=
      Nat.lt_of_le_of_lt (le_foldl_digitValue _ cs) h
    rw [extendDigits]
    simp only [if_pos hNext]
    exact ih h

theorem foldl_digitsOf (n : Nat) :
    (digitsOf n).foldl (fun n c => 10 * n + digitValue c) 0 = n :=
  Nat.ofDigitChars_ten_toDigits

/-- **The numeral of a natural number of 64 bits stands for it.** -/
theorem Numeral.inDocument?_ofNat {n : Nat} (h : n < wordBound) :
    (Numeral.ofNat n).inDocument? = some (.natural n) := by
  have hDigits : extendDigits 0 (Numeral.ofNat n).whole = (n, []) := by
    have hEq := @extendDigits_eq 0 (digitsOf n) (by rw [foldl_digitsOf]; exact h)
    rw [foldl_digitsOf] at hEq
    exact hEq
  unfold inDocument?
  rw [hDigits]
  rfl

/-! ## Numbers of 64 bits with a point -/

/-- Digits with a point are legible unless idle zeros stand before the point. -/
theorem legible_pointed {negative : Bool} {digits : List Char} {places : Nat}
    {exponent : Option (Bool × List Char)} (hDigits : ∀ c ∈ digits, c.isDigit)
    (hLeading : digits.head? = some '0' → digits.length ≤ places + 1)
    (hNonempty : ∀ x ∈ exponent, x.2 ≠ []) (hExponent : ∀ x ∈ exponent, ∀ c ∈ x.2, c.isDigit) :
    (pointed negative digits places exponent).Legible := by
  have hAll : ∀ c ∈ zeros (places + 1 - digits.length) ++ digits, c.isDigit := by
    intro c hc
    rcases List.mem_append.mp hc with hc | hc
    · exact isDigit_of_mem_zeros hc
    · exact hDigits c hc
  -- The zeros in front leave one digit at least before the point.
  have hLength : (zeros (places + 1 - digits.length) ++ digits).length =
      max (places + 1) digits.length := by
    rw [List.length_append, zeros, List.length_replicate]
    omega
  unfold pointed
  refine ⟨?_, fun c hc => hAll c (List.mem_of_mem_take hc), ?_,
    fun c hc => hAll c (List.mem_of_mem_drop hc), hNonempty, hExponent⟩
  · intro hNil
    have hEmpty := congrArg List.length hNil
    simp only [List.length_take, hLength, List.length_nil] at hEmpty
    omega
  · intro hHead
    simp only [List.length_take, hLength] at hHead ⊢
    by_cases hShort : digits.length ≤ places + 1
    · omega
    · -- All digits before the point are digits given, so the first one is.
      have hNone : places + 1 - digits.length = 0 := by omega
      rw [hNone, List.head?_take] at hHead
      split at hHead
      · exact absurd hHead (by simp)
      · exact absurd (hLeading hHead) hShort

namespace RoundingInterval

theorem le_leadingZeros (r : RoundingInterval) (fuel k : Nat) : k ≤ r.leadingZeros fuel k := by
  induction fuel generalizing k with
  | zero => exact Nat.le_refl k
  | succ fuel ih =>
    rw [leadingZeros]
    split
    · exact Nat.le_refl k
    · exact Nat.le_trans (Nat.le_succ k) (ih (k + 1))

/-- A number below one begins behind the point. -/
theorem magnitude_neg {r : RoundingInterval} (h : r.value / r.denominator = 0) :
    r.magnitude < 0 := by
  have hLeast := r.le_leadingZeros 400 1
  unfold magnitude
  simp only [h, ↓reduceIte]
  omega

/-- Zero is not in an interval of positive numbers. -/
theorem contains_zero {r : RoundingInterval} (h : 0 < r.low) : r.contains 0 = false := by
  have hClosed : decide (r.low ≤ 0) = false := decide_eq_false (by omega)
  have hOpen : decide (r.low < 0) = false := decide_eq_false (by omega)
  simp only [contains, Nat.zero_mul, hClosed, hOpen, Bool.false_and, ite_self]

theorem ne_zero_of_nearest? {r : RoundingInterval} (h : 0 < r.low) {tie : Tie} {n : Nat}
    (hNearest : r.nearest? tie = some n) : n ≠ 0 := by
  rintro rfl
  have hZero := contains_zero h
  unfold nearest? at hNearest
  simp only at hNearest
  -- The value above is at least one, so only the one below can be zero.
  cases hBelow : r.contains (r.value / r.denominator) with
  | false =>
    rw [hBelow] at hNearest
    cases hAbove : r.contains (r.value / r.denominator + 1) <;> simp [hAbove] at hNearest
  | true =>
    have hPositive : r.value / r.denominator ≠ 0 := by
      intro hEq
      rw [hEq, hZero] at hBelow
      exact Bool.noConfusion hBelow
    rw [hBelow] at hNearest
    cases hAbove : r.contains (r.value / r.denominator + 1) with
    | false =>
      rw [hAbove] at hNearest
      exact hPositive (Option.some.inj hNearest)
    | true =>
      rw [hAbove] at hNearest
      simp only at hNearest
      split at hNearest
      · exact hPositive (Option.some.inj hNearest)
      · exact absurd (Option.some.inj hNearest) (by simp)
      · split at hNearest
        · exact absurd (Option.some.inj hNearest) (by simp)
        · have hEven := Option.some.inj hNearest
          split at hEven
          · exact hPositive hEven
          · exact absurd hEven (Nat.succ_ne_zero _)

theorem low_pos_ofParts {mantissa : Nat} (h : mantissa ≠ 0) (exponent : Int) :
    0 < (ofParts mantissa exponent).low := by
  have hScale : 0 < Nat.pow 2 (exponent - 2).toNat := Nat.pow_pos (by decide)
  unfold ofParts
  simp only
  apply Nat.mul_pos _ hScale
  split <;> omega

theorem low_pos_inUnitsOf {r : RoundingInterval} (h : 0 < r.low) (k : Int) :
    0 < (r.inUnitsOf k).low :=
  Nat.mul_pos h (Nat.pow_pos (by decide))

end RoundingInterval

theorem digits_dropZeros_ne_zero (fuel : Nat) {d : Decimal} (h : d.digits ≠ 0) :
    (dropZeros fuel d).digits ≠ 0 := by
  induction fuel generalizing d with
  | zero => exact h
  | succ fuel ih =>
    rw [dropZeros]
    split
    · rename_i hTen
      apply ih
      have hMod : d.digits % 10 = 0 := by simpa [h] using hTen
      show d.digits / 10 ≠ 0
      omega
    · exact h

/-- The search finds a positive number, unless it runs out of grids for a number below one. -/
theorem searchGrids_digits_eq_zero {r : RoundingInterval} (hLow : 0 < r.low) {tie : Tie}
    {magnitude : Int} {fuel count : Nat}
    (h : (searchGrids r tie magnitude fuel count).digits = 0) :
    r.value / r.denominator = 0 ∧
      (searchGrids r tie magnitude fuel count).exponent ≤ magnitude := by
  induction fuel generalizing count with
  | zero => exact ⟨h, by show magnitude - count ≤ magnitude; omega⟩
  | succ fuel ih =>
    rw [searchGrids] at h ⊢
    cases hNearest : (r.inUnitsOf (magnitude - count)).nearest? tie with
    | none =>
      rw [hNearest] at h
      exact ih h
    | some digits =>
      rw [hNearest] at h
      have hDigits := RoundingInterval.ne_zero_of_nearest?
        (RoundingInterval.low_pos_inUnitsOf hLow _) hNearest
      exact absurd h (digits_dropZeros_ne_zero 20 hDigits)

theorem exponent_neg_of_digits_eq_zero {tie : Tie} {mantissa : Nat} {exponent : Int}
    (hMantissa : mantissa ≠ 0) (h : (shortestDecimal tie mantissa exponent).digits = 0) :
    (shortestDecimal tie mantissa exponent).exponent < 0 := by
  have hLow := RoundingInterval.low_pos_ofParts hMantissa exponent
  obtain ⟨hWhole, hExponent⟩ := searchGrids_digits_eq_zero hLow h
  exact Int.lt_of_le_of_lt hExponent (RoundingInterval.magnitude_neg hWhole)

namespace Decimal

theorem legible_positional {d : Decimal} (h : d.digits = 0 → d.exponent < 0) (negative : Bool) :
    (d.positional negative).Legible := by
  unfold positional
  split
  · rename_i e hExponent
    -- A number without digits behind the point is written as an integer; it is not zero here.
    have hPositive : d.digits ≠ 0 := by
      intro hZero
      have := h hZero
      rw [hExponent] at this
      exact absurd this (by simp)
    refine ⟨by simp [digitsOf], ?_, ?_, fun _ hc => absurd hc List.not_mem_nil,
      fun _ hx => absurd hx (by simp), fun _ hx => absurd hx (by simp)⟩
    · intro c hc
      rcases List.mem_append.mp hc with hc | hc
      · exact isDigit_of_mem_digitsOf hc
      · exact isDigit_of_mem_zeros hc
    · intro hHead
      have hFirst : (Nat.toDigits 10 d.digits ++ zeros e).head? = some '0' := hHead
      rw [List.head?_append_of_ne_nil _ Nat.toDigits_ne_nil] at hFirst
      exact absurd (eq_zero_of_head?_digitsOf hFirst) hPositive
  · rename_i e _
    apply legible_pointed (fun c hc => isDigit_of_mem_digitsOf hc)
    · intro hHead
      rw [eq_zero_of_head?_digitsOf hHead]
      show 1 ≤ _
      omega
    · exact fun _ hx => absurd hx (by simp)
    · exact fun _ hx => absurd hx (by simp)

theorem legible_scientific (d : Decimal) (negative : Bool) : (d.scientific negative).Legible := by
  unfold scientific
  apply legible_pointed (fun c hc => isDigit_of_mem_digitsOf hc)
  · intro _
    omega
  · intro x hx
    obtain rfl := Option.some.inj hx
    exact Nat.toDigits_ne_nil
  · intro x hx c hc
    obtain rfl := Option.some.inj hx
    exact isDigit_of_mem_digitsOf hc

theorem legible_inDocument {d : Decimal} (h : d.digits = 0 → d.exponent < 0) (negative : Bool) :
    (d.inDocument negative).Legible := by
  have hPositional := legible_positional h negative
  unfold inDocument
  split
  · simp only
    split
    · refine ⟨hPositional.whole_ne_nil, hPositional.whole_digits, hPositional.leading, ?_,
        hPositional.exponent_ne_nil, hPositional.exponent_digits⟩
      intro c hc
      obtain rfl := List.mem_singleton.mp hc
      rfl
    · exact hPositional
  · exact legible_scientific d negative

end Decimal

/-- **The numeral of a finite number is legible.** -/
theorem legible_documentNumeral {x : Float} {n : Numeral} (h : documentNumeral? x = some n) :
    n.Legible := by
  unfold documentNumeral? at h
  split at h
  · exact absurd h (by simp)
  · exact absurd h (by simp)
  · obtain rfl := Option.some.inj h
    refine ⟨by simp, ?_, fun _ => rfl, ?_, fun _ hx => absurd hx (by simp),
      fun _ hx => absurd hx (by simp)⟩
    all_goals
      intro c hc
      obtain rfl := List.mem_singleton.mp hc
      rfl
  · rename_i negative mantissa exponent hMantissa _
    obtain rfl := Option.some.inj h
    exact Decimal.legible_inDocument (exponent_neg_of_digits_eq_zero hMantissa) negative

/-- The numeral of the number stands for the number in documents. -/
def ExactInDocument (x : Float) : Prop :=
  ∃ n, documentNumeral? x = some n ∧ (Json.number n).asFloat = .ok x

end ArrayEquations
