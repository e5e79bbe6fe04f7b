import ArrayEquations.Proofs.PrintedMarks

/-!
# ArrayEquations — numbers side by side

On the page two numbers side by side read as one unless something keeps them apart. The thin space
between two factors is chosen by the first character of the right one. So it is there wherever two
numbers meet, unless the right factor begins with a power: that begins with the brace around its
base.

## Main definitions

* `NumbersMeet` — the last mark printed on the left and the first one on the right are digits of
  numbers in one line.
* `Expr.beginsWithPower` — whether a product begins with a power.

## Main results

* `Expr.first_printed` — with what a factor begins whose first printed mark is a digit.
* `Expr.endsLow_marks` — no formula ends in the upper part of a quotient.
* `Expr.meeting_numbers_apart` — where numbers meet there is a thin space, unless the right factor
  begins with a power.
-/

namespace ArrayEquations

open Mark

/-! ## Where numbers meet -/

/-- The last mark printed on the left and the first one on the right are digits of numbers, in one
line. -/
def NumbersMeet (left right : List Mark) : Prop :=
  ∃ a ∈ (printed left).getLast?, ∃ b ∈ (printed right).head?,
    a.IsDigit ∧ b.IsDigit ∧ a.line = b.line

namespace Mark

variable {ms : List Mark} {s : String}

theorem write_eq_nil {role : Role} : write role s = [] ↔ s = "" := by simp [write]

theorem shifted_eq_nil {line : List Shift} : shifted line ms = [] ↔ ms = [] := List.map_eq_nil_iff

theorem role_of_mem_write {role : Role} {m : Mark} (h : m ∈ write role s) : m.role = role := by
  obtain ⟨c, -, rfl⟩ := List.mem_map.mp h
  rfl

theorem ne_nil_of_printed (h : printed ms ≠ []) : chars ms ≠ [] := by
  rintro hChars
  rw [List.map_eq_nil_iff.mp hChars] at h
  exact h rfl

end Mark

namespace Expr

/-- Whether a formula begins with a power as it is written: it is one, or a product whose first
factor with a text begins with one. -/
def beginsWithPower : Expr → Bool
  | .binary .pow _ _ => true
  | .binary .mul lhs rhs =>
    if lhs.isWrappedLeft then false
    else if latex lhs = "" then !rhs.isWrappedRight && rhs.beginsWithPower
    else lhs.beginsWithPower
  | .terms [single] => single.beginsWithPower
  | _ => false

section Factors

variable {lhs rhs e : Expr}

theorem product_le_of_not_wrapped (h : e.isWrappedRight = false) : .product ≤ e.strength :=
  Nat.not_lt.mp (of_decide_eq_false h)

theorem product_le_of_not_wrappedLeft (h : e.isWrappedLeft = false) : .product ≤ e.strength :=
  product_le_of_not_wrapped (Bool.or_eq_false_iff.mp h).1

theorem not_product_le_sum : ¬ Strength.product ≤ Strength.sum := by decide

theorem leftMarks_of_not_wrapped (h : e.isWrappedLeft = false) : e.leftMarks = e.marks := by
  rw [leftMarks, h]
  rfl

theorem rightMarks_of_not_wrapped (h : e.isWrappedRight = false) : e.rightMarks = e.marks := by
  rw [rightMarks, h]
  rfl

theorem rightText_of_not_wrapped (h : e.isWrappedRight = false) : e.rightText = latex e := by
  rw [rightText, h]
  rfl

theorem leftText_of_not_wrapped (h : e.isWrappedLeft = false) : e.leftText = latex e := by
  rw [leftText, h]
  rfl

theorem marks_mul (lhs rhs : Expr) : (binary .mul lhs rhs).marks =
    lhs.leftMarks ++ write .silent (gapText lhs rhs) ++ rhs.rightMarks := by
  rw [marks]
  rfl

theorem printed_mul (lhs rhs : Expr) : printed (binary .mul lhs rhs).marks =
    printed lhs.leftMarks ++ printed rhs.rightMarks := by
  rw [marks_mul, printed_append, printed_append, printed_silent, List.append_nil]

/-- Behind a factor without a text the other one stands alone. -/
theorem latex_mul_of_empty (hWrapped : lhs.isWrappedLeft = false)
    (hWrapped' : rhs.isWrappedRight = false) (hEmpty : latex lhs = "") :
    latex (binary .mul lhs rhs) = latex rhs := by
  have hGap : gapText lhs rhs = "" := by
    rw [gapText, leftText_of_not_wrapped hWrapped, hEmpty]
    rfl
  rw [latex_mul, hGap, leftText_of_not_wrapped hWrapped, hEmpty, rightText_of_not_wrapped hWrapped']
  exact String.empty_append

/-- With a text of its own and no brackets, the left factor is what a product begins with. -/
theorem head?_latex_mul (hWrapped : lhs.isWrappedLeft = false) {c : Char}
    (hc : c ∈ (latex lhs).toList.head?) : c ∈ (latex (binary .mul lhs rhs)).toList.head? := by
  rw [latex_mul, leftText_of_not_wrapped hWrapped, String.toList_append, String.toList_append,
    List.append_assoc, List.head?_append, hc]
  rfl

theorem beginsWithPower_mul : (binary .mul lhs rhs).beginsWithPower = true ↔
    lhs.isWrappedLeft = false ∧
      (latex lhs ≠ "" ∧ lhs.beginsWithPower = true ∨
        latex lhs = "" ∧ rhs.isWrappedRight = false ∧ rhs.beginsWithPower = true) := by
  rw [beginsWithPower]
  by_cases hEmpty : latex lhs = ""
  · cases lhs.isWrappedLeft <;> simp [hEmpty]
  · cases lhs.isWrappedLeft <;> simp [hEmpty]

/-- A factor that prints something has a text. -/
theorem latex_ne_empty (h : printed e.marks ≠ []) : latex e ≠ "" := by
  intro hEmpty
  refine ne_nil_of_printed h ?_
  rw [chars_marks, hEmpty]
  rfl

theorem marks_single (t : Expr) : (terms [t]).marks = t.marks := by
  rw [marks, marksAddends, List.append_nil]

theorem latex_single (t : Expr) : latex (terms [t]) = latex t := by
  rw [latex, latexAddends, String.append_empty]

/-- A sum of summands that binds as a product has one summand. -/
theorem eq_single_of_product_le {ts : List Expr} (h : .product ≤ (terms ts).strength) :
    ∃ t, ts = [t] := by
  rcases ts with _ | ⟨t, _ | ⟨u, ts⟩⟩
  · exact absurd h not_product_le_sum
  · exact ⟨t, rfl⟩
  · exact absurd h not_product_le_sum

theorem eq_single_of_beginsWithPower {ts : List Expr} (h : (terms ts).beginsWithPower = true) :
    ∃ t, ts = [t] := by
  rcases ts with _ | ⟨t, _ | ⟨u, ts⟩⟩
  · exact absurd h (by simp [beginsWithPower])
  · exact ⟨t, rfl⟩
  · exact absurd h (by simp [beginsWithPower])

end Factors

theorem rowText_ne_empty {indices : List Index} (h : indices ≠ []) :
    Index.rowText indices ≠ "" := by
  obtain ⟨i, is, rfl⟩ := List.exists_cons_of_ne_nil h
  intro hEmpty
  have hChars := congrArg String.toList hEmpty
  rw [Index.rowText, List.map_cons, String.join_cons, Index.text] at hChars
  simp at hChars

/-- No digit in a symbol is one of a number. -/
theorem not_isDigit_reference {r : Reference} {m : Mark} (h : m ∈ r.marks) : ¬ m.IsDigit := by
  have hWrite : ∀ {role s}, role ≠ .number → m ∈ write role s → ¬ m.IsDigit :=
    fun hRole hm hDigit => hRole ((role_of_mem_write hm).symm.trans hDigit.1)
  unfold Reference.marks at h
  rcases List.mem_append.mp h with h | h
  · rcases List.mem_append.mp h with h | h
    · exact hWrite (by decide) h
    · split at h
      · exact absurd h List.not_mem_nil
      · rw [subscript, grouped] at h
        simp only [List.mem_append] at h
        rcases h with h | (h | h) | h
        · exact hWrite (by decide) h
        · exact hWrite (by decide) h
        · obtain ⟨m', hm', rfl⟩ := List.mem_map.mp h
          rintro ⟨hNumber, -⟩
          exact absurd ((role_of_mem_write hm').symm.trans hNumber) (by decide)
        · exact hWrite (by decide) h
  · exact hWrite (by decide) h

/-- A symbol that prints nothing has no text. -/
theorem latex_reference_of_silent {r : Reference} (h : printed r.marks = []) : r.latex = "" := by
  unfold Reference.marks at h
  unfold Reference.latex
  cases hIndices : r.indices with
  | nil =>
    simpa [hIndices, write_eq_nil] using h
  | cons i is =>
    have hRow : Index.rowText (i :: is) ≠ "" := rowText_ne_empty (by simp)
    simp [hIndices, subscript, write_eq_nil, shifted_eq_nil, hRow] at h

/-- The marks begin with something printed that is no number. -/
def BeginsWithInk (ms : List Mark) : Prop := ∃ s rest, s ≠ "" ∧ ms = write .ink s ++ rest

theorem BeginsWithInk.append {ms : List Mark} (h : BeginsWithInk ms) (ns : List Mark) :
    BeginsWithInk (ms ++ ns) := by
  obtain ⟨s, rest, hs, rfl⟩ := h
  exact ⟨s, rest ++ ns, hs, List.append_assoc _ _ _⟩

theorem BeginsWithInk.printed_ne_nil {ms : List Mark} (h : BeginsWithInk ms) :
    printed ms ≠ [] := by
  obtain ⟨s, rest, hs, rfl⟩ := h
  simp [write_eq_nil, hs]

theorem BeginsWithInk.not_isDigit {ms : List Mark} (h : BeginsWithInk ms) {b : Mark}
    (hb : b ∈ (printed ms).head?) : ¬ b.IsDigit := by
  obtain ⟨s, rest, hs, rfl⟩ := h
  have hInk : write .ink s ≠ [] := mt write_eq_nil.mp hs
  rw [printed_append, printed_ink, List.head?_append_of_ne_nil _ hInk] at hb
  have hRole := role_of_mem_write (List.mem_of_mem_head? hb)
  rintro ⟨hNumber, -⟩
  exact absurd (hRole.symm.trans hNumber) (by decide)

theorem beginsWithInk_write {s : String} (hs : s ≠ "") (ms : List Mark) :
    BeginsWithInk (write .ink s ++ ms) := ⟨s, ms, hs, rfl⟩

theorem beginsWithInk_fenced (ms : List Mark) : BeginsWithInk (fenced ms) := by
  rw [fenced, List.append_assoc]
  exact beginsWithInk_write (by decide) _

/-- The brackets around a factor are printed. -/
theorem not_wrappedLeft {e : Expr} (h : ¬ BeginsWithInk e.leftMarks) : e.isWrappedLeft = false := by
  by_contra hTrue
  rw [leftMarks, Bool.eq_true_of_not_eq_false hTrue] at h
  exact h (beginsWithInk_fenced _)

theorem not_wrappedRight {e : Expr} (h : ¬ BeginsWithInk e.rightMarks) :
    e.isWrappedRight = false := by
  by_contra hTrue
  rw [rightMarks, Bool.eq_true_of_not_eq_false hTrue] at h
  exact h (beginsWithInk_fenced _)

theorem beginsWithInk_call (f : NamedFunction) (ms : List Mark) : BeginsWithInk (f.marks ms) := by
  cases f with
  | relu => exact (beginsWithInk_write (by decide) _).append _
  | _ => exact beginsWithInk_write (by decide) _

theorem beginsWithInk_indicator (c : Comparison) (lhs rhs : Expr) :
    BeginsWithInk (indicator c lhs rhs).marks := by
  rw [marks]
  exact ((beginsWithInk_write (by decide) _).append _).append _

theorem beginsWithInk_sum (indices : List Index) (body : Expr) :
    BeginsWithInk (sum indices body).marks := by
  rw [marks]
  exact (beginsWithInk_write (by decide) _).append _

/-- A factor that has a text, but prints nothing, begins with a power. -/
theorem beginsWithPower_of_silent {e : Expr} : .product ≤ e.strength → printed e.marks = [] →
    latex e ≠ "" → e.beginsWithPower = true := by
  induction e using Expr.inductionOn with
  | var r =>
    intro _ hSilent hText
    rw [marks] at hSilent
    exact absurd (latex_reference_of_silent hSilent) hText
  | literal x =>
    intro _ hSilent hText
    rw [marks, printed_number, write_eq_nil] at hSilent
    exact absurd hSilent hText
  | binary op lhs rhs ihLhs ihRhs =>
    intro hStrength hSilent hText
    cases op with
    | add | sub => exact absurd hStrength not_product_le_sum
    | div =>
      rw [marks] at hSilent
      simp [write_eq_nil] at hSilent
    | pow => rfl
    | mul =>
      rw [printed_mul, List.append_eq_nil_iff] at hSilent
      obtain ⟨hLeft, hRight⟩ := hSilent
      have hWrapped := not_wrappedLeft fun hInk => hInk.printed_ne_nil hLeft
      have hWrapped' := not_wrappedRight fun hInk => hInk.printed_ne_nil hRight
      rw [leftMarks_of_not_wrapped hWrapped] at hLeft
      rw [rightMarks_of_not_wrapped hWrapped'] at hRight
      refine beginsWithPower_mul.mpr ⟨hWrapped, ?_⟩
      -- If the left factor has no text, the product is the right one alone.
      by_cases hEmpty : latex lhs = ""
      · rw [latex_mul_of_empty hWrapped hWrapped' hEmpty] at hText
        have hPower := ihRhs (product_le_of_not_wrapped hWrapped') hRight hText
        exact Or.inr ⟨hEmpty, hWrapped', hPower⟩
      · have hPower := ihLhs (product_le_of_not_wrappedLeft hWrapped) hLeft hEmpty
        exact Or.inl ⟨hEmpty, hPower⟩
  | neg e _ => exact fun hStrength => absurd hStrength not_product_le_sum
  | call f argument _ =>
    intro _ hSilent
    rw [marks] at hSilent
    exact absurd hSilent (beginsWithInk_call f _).printed_ne_nil
  | indicator c lhs rhs _ _ =>
    exact fun _ hSilent => absurd hSilent (beginsWithInk_indicator c lhs rhs).printed_ne_nil
  | sum indices body _ =>
    exact fun _ hSilent => absurd hSilent (beginsWithInk_sum indices body).printed_ne_nil
  | terms ts ih =>
    intro hStrength hSilent hText
    obtain ⟨t, rfl⟩ := eq_single_of_product_le hStrength
    rw [marks_single] at hSilent
    rw [latex_single] at hText
    exact ih t (by simp) hStrength hSilent hText

/-- The text of a factor that begins with a power begins with the brace around its base. -/
theorem latex_of_beginsWithPower {e : Expr} (h : e.beginsWithPower = true) :
    (latex e).toList.head? = some '\x7b' := by
  induction e using Expr.inductionOn with
  | var r | literal x | neg e _ | call f argument _ | indicator c lhs rhs _ _
  | sum indices body _ =>
    exact absurd h (by simp [beginsWithPower])
  | binary op lhs rhs ihLhs ihRhs =>
    cases op with
    | add | sub | div => exact absurd h (by simp [beginsWithPower])
    | pow =>
      rw [latex, String.toList_append, String.toList_append, Written.toList_braced]
      rfl
    -- A product begins like its left factor, or like the right one where the left has no text.
    | mul =>
      obtain ⟨hWrapped, ⟨-, hPower⟩ | ⟨hEmpty, hWrapped', hPower⟩⟩ := beginsWithPower_mul.mp h
      · exact head?_latex_mul hWrapped (ihLhs hPower)
      · rw [latex_mul_of_empty hWrapped hWrapped' hEmpty]
        exact ihRhs hPower
  | terms ts ih =>
    obtain ⟨t, rfl⟩ := eq_single_of_beginsWithPower h
    rw [latex_single]
    rw [beginsWithPower] at h
    exact ih t (by simp) h

/-- **With what a factor begins whose first printed mark is a digit of a number**: with a power,
with the upper part of a quotient, or with the digit itself. -/
theorem first_printed {e : Expr} {b : Mark} (hDigit : b.IsDigit) : .product ≤ e.strength →
    b ∈ (printed e.marks).head? →
    e.beginsWithPower = true ∨ .above ∈ b.line ∨
      ∃ c ∈ (latex e).toList.head?, c.isDigit = true := by
  induction e using Expr.inductionOn generalizing b with
  | var r =>
    intro _ hb
    rw [marks] at hb
    have hMem := (List.mem_filter.mp (List.mem_of_mem_head? hb)).1
    exact absurd hDigit (not_isDigit_reference hMem)
  | literal x =>
    intro _ hb
    rw [marks, printed_number, write, List.head?_map] at hb
    obtain ⟨c, hc, rfl⟩ := Option.map_eq_some_iff.mp hb
    exact Or.inr (Or.inr ⟨c, hc, hDigit.2⟩)
  | binary op lhs rhs ihLhs ihRhs =>
    intro hStrength hb
    cases op with
    | add | sub => exact absurd hStrength not_product_le_sum
    | pow => exact Or.inl rfl
    | div =>
      rw [marks, printed_grouped, List.append_assoc, printed_append, printed_shifted] at hb
      by_cases hUpper : printed lhs.marks = []
      · -- Then the line of the quotient is printed first.
        rw [hUpper] at hb
        exact absurd hDigit ((beginsWithInk_write (by decide) _).not_isDigit hb)
      · rw [List.head?_append_of_ne_nil _ (mt shifted_eq_nil.mp hUpper), Mark.shifted,
          List.head?_map] at hb
        obtain ⟨m, -, rfl⟩ := Option.map_eq_some_iff.mp hb
        exact Or.inr (Or.inl (List.mem_append_left _ List.mem_cons_self))
    | mul =>
      rw [printed_mul, List.head?_append] at hb
      cases hHead : (printed lhs.leftMarks).head? with
      | some m =>
        -- The left factor prints the mark.
        rw [hHead] at hb
        obtain rfl : m = b := Option.some.inj hb
        have hWrapped := not_wrappedLeft fun hInk => hInk.not_isDigit hHead hDigit
        rw [leftMarks_of_not_wrapped hWrapped] at hHead
        have hText : latex lhs ≠ "" := latex_ne_empty fun hNil => by simp [hNil] at hHead
        obtain hPower | hAbove | ⟨c, hc, hcDigit⟩ :=
          ihLhs hDigit (product_le_of_not_wrappedLeft hWrapped) hHead
        · exact Or.inl (beginsWithPower_mul.mpr ⟨hWrapped, Or.inl ⟨hText, hPower⟩⟩)
        · exact Or.inr (Or.inl hAbove)
        · exact Or.inr (Or.inr ⟨c, head?_latex_mul hWrapped hc, hcDigit⟩)
      | none =>
        -- The left factor prints nothing: it has no text, or begins with a power.
        rw [hHead] at hb
        have hSilent := List.head?_eq_none_iff.mp hHead
        have hWrapped := not_wrappedLeft fun hInk => hInk.printed_ne_nil hSilent
        have hWrapped' := not_wrappedRight fun hInk => hInk.not_isDigit hb hDigit
        rw [leftMarks_of_not_wrapped hWrapped] at hSilent
        rw [rightMarks_of_not_wrapped hWrapped'] at hb
        by_cases hEmpty : latex lhs = ""
        · rw [latex_mul_of_empty hWrapped hWrapped' hEmpty]
          refine (ihRhs hDigit (product_le_of_not_wrapped hWrapped') hb).imp_left fun hPower => ?_
          exact beginsWithPower_mul.mpr ⟨hWrapped, Or.inr ⟨hEmpty, hWrapped', hPower⟩⟩
        · have hPower :=
            beginsWithPower_of_silent (product_le_of_not_wrappedLeft hWrapped) hSilent hEmpty
          exact Or.inl (beginsWithPower_mul.mpr ⟨hWrapped, Or.inl ⟨hEmpty, hPower⟩⟩)
  | neg e _ => exact fun hStrength => absurd hStrength not_product_le_sum
  | call f argument _ =>
    intro _ hb
    rw [marks] at hb
    exact absurd hDigit ((beginsWithInk_call f _).not_isDigit hb)
  | indicator c lhs rhs _ _ =>
    exact fun _ hb => absurd hDigit ((beginsWithInk_indicator c lhs rhs).not_isDigit hb)
  | sum indices body _ =>
    exact fun _ hb => absurd hDigit ((beginsWithInk_sum indices body).not_isDigit hb)
  | terms ts ih =>
    intro hStrength hb
    obtain ⟨t, rfl⟩ := eq_single_of_product_le hStrength
    rw [marks_single] at hb
    rw [latex_single, beginsWithPower]
    exact ih t (by simp) hDigit hStrength hb

end Expr

/-! ### Where a factor ends -/

namespace Mark

variable {ms ns : List Mark}

/-- What is printed last is not in the upper part of a quotient. -/
def EndsLow (ms : List Mark) : Prop := ∀ a ∈ (printed ms).getLast?, Shift.above ∉ a.line

theorem endsLow_nil : EndsLow [] := fun _ ha => absurd ha (by simp [printed])

theorem endsLow_write (role : Role) (s : String) : EndsLow (write role s) := by
  intro a ha
  have hMem := (List.mem_filter.mp (List.mem_of_getLast? ha)).1
  obtain ⟨c, -, rfl⟩ := List.mem_map.mp hMem
  exact List.not_mem_nil

theorem EndsLow.append (hms : EndsLow ms) (hns : EndsLow ns) : EndsLow (ms ++ ns) := by
  intro a ha
  rw [printed_append, List.getLast?_append] at ha
  cases hLast : (printed ns).getLast? with
  | some b =>
    rw [hLast] at ha
    exact hns a (hLast.trans ha)
  | none =>
    rw [hLast] at ha
    exact hms a ha

/-- What stands before something printed does not matter. -/
theorem EndsLow.append_of_printed (hns : EndsLow ns) (hPrinted : printed ns ≠ [])
    (ms : List Mark) : EndsLow (ms ++ ns) := by
  intro a ha
  rw [printed_append, List.getLast?_append_of_ne_nil _ hPrinted] at ha
  exact hns a ha

theorem EndsLow.shifted {shift : Shift} (hShift : shift ≠ .above) (h : EndsLow ms) :
    EndsLow (shifted [shift] ms) := by
  intro a ha
  rw [printed_shifted, Mark.shifted, List.getLast?_map] at ha
  obtain ⟨m, hm, rfl⟩ := Option.map_eq_some_iff.mp ha
  simpa [hShift.symm] using h m hm

theorem EndsLow.grouped (h : EndsLow ms) : EndsLow (grouped ms) := by
  intro a ha
  rw [printed_grouped] at ha
  exact h a ha

theorem endsLow_fenced (ms : List Mark) : EndsLow (fenced ms) :=
  (endsLow_write .ink "\\right)").append_of_printed (by decide) _

theorem EndsLow.fencedIf (needed : Bool) (h : EndsLow ms) : EndsLow (fencedIf needed ms) := by
  cases needed with
  | false => exact h
  | true => exact endsLow_fenced ms

end Mark

theorem endsLow_reference (r : Reference) : EndsLow r.marks := by
  refine ((endsLow_write _ _).append ?_).append (endsLow_write _ _)
  split
  · exact endsLow_nil
  · exact (endsLow_write _ _).append ((endsLow_write _ _).shifted (by decide)).grouped

theorem endsLow_function (f : NamedFunction) {ms : List Mark} (h : EndsLow ms) :
    EndsLow (f.marks ms) := by
  cases f with
  | sqrt => exact (endsLow_write _ _).append h.grouped
  | relu =>
    exact ((endsLow_write _ _).append (endsLow_write _ _).grouped).append (endsLow_fenced ms)
  | _ => exact (endsLow_write _ _).append (endsLow_fenced ms)

namespace Expr

theorem endsLow_marksAddends {ts : List Expr} (h : ∀ t ∈ ts, EndsLow t.marks) :
    EndsLow (marksAddends ts) := by
  induction ts with
  | nil =>
    rw [marksAddends]
    exact endsLow_nil
  | cons t ts ih =>
    obtain ⟨hFirst, hRest⟩ := List.forall_mem_cons.mp h
    rw [marksAddends]
    exact ((endsLow_write _ _).append (hFirst.fencedIf _)).append (ih hRest)

/-- No formula ends in the upper part of a quotient: its lower part stands behind, and its line. -/
theorem endsLow_marks (e : Expr) : EndsLow e.marks := by
  induction e using Expr.inductionOn with
  | var r =>
    rw [marks]
    exact endsLow_reference r
  | literal x =>
    rw [marks]
    exact endsLow_write _ _
  | binary op lhs rhs ihLhs ihRhs =>
    cases op with
    | add =>
      rw [marks]
      exact ihLhs.append ((endsLow_write _ _).append (ihRhs.fencedIf _))
    | sub =>
      rw [marks]
      exact (ihLhs.append (endsLow_write _ _)).append (ihRhs.fencedIf _)
    | mul =>
      rw [marks]
      exact ((ihLhs.fencedIf _).append (endsLow_write _ _)).append (ihRhs.fencedIf _)
    | div =>
      -- The line below the fraction is never empty, and it ends the formula.
      have hLower : EndsLow (write .ink " \\over " ++ shifted [.below] rhs.marks) :=
        (endsLow_write _ _).append (ihRhs.shifted (by decide))
      rw [marks, List.append_assoc]
      exact (hLower.append_of_printed (by simp [write_eq_nil]) _).grouped
    | pow =>
      rw [marks]
      exact (((ihLhs.fencedIf _).grouped).append (endsLow_write _ _)).append
        (ihRhs.shifted (by decide)).grouped
  | neg e ih =>
    rw [marks]
    exact (endsLow_write _ _).append (ih.fencedIf _)
  | call f argument ih =>
    rw [marks]
    exact endsLow_function f ih
  | indicator c lhs rhs ihLhs ihRhs =>
    rw [marks]
    have hInner := (ihLhs.append (endsLow_write .ink (" " ++ c.latex ++ " "))).append ihRhs
    exact ((((endsLow_write _ _).append (endsLow_write _ _).grouped).append
      (endsLow_write _ _)).append (hInner.shifted (by decide)).grouped)
  | sum indices body ih =>
    rw [marks]
    have hIndices : EndsLow (subscript indices) :=
      (endsLow_write _ _).append ((endsLow_write _ _).shifted (by decide)).grouped
    exact ((endsLow_write _ _).append hIndices).append (ih.fencedIf _)
  | terms ts ih =>
    cases ts with
    | nil =>
      rw [marks]
      exact endsLow_nil
    | cons t ts =>
      obtain ⟨hFirst, hRest⟩ := List.forall_mem_cons.mp ih
      rw [marks]
      exact hFirst.append (endsLow_marksAddends hRest)

/-! ## The space between numbers -/

theorem gapText_of_digit {lhs rhs : Expr} (hLhs : lhs.leftText ≠ "") {c : Char}
    (hc : c ∈ rhs.rightText.toList.head?) (hDigit : c.isDigit = true) :
    gapText lhs rhs = "\\," := by
  have hNonempty : lhs.leftText.toList ≠ [] := by simpa using hLhs
  obtain ⟨last, hLast⟩ := Option.isSome_iff_exists.mp (List.getLast?_isSome.mpr hNonempty)
  rw [gapText, Written.gap, hLast, hc]
  dsimp only
  rw [if_pos hDigit]

theorem gapText_of_brace {lhs rhs : Expr} (hc : rhs.rightText.toList.head? = some '\x7b') :
    gapText lhs rhs = "" := by
  rw [gapText, Written.gap, hc]
  cases lhs.leftText.toList.getLast? with
  | none => rfl
  | some last =>
    simp [Written.isAlphanumeric_brace]

/-- **Where the numbers of two factors meet there is a thin space between the factors**, unless the
right one begins with a power: then there is nothing. -/
theorem gapText_of_meeting {lhs rhs : Expr} (h : NumbersMeet lhs.leftMarks rhs.rightMarks) :
    gapText lhs rhs = if rhs.beginsWithPower then "" else "\\," := by
  obtain ⟨a, ha, b, hb, -, hDigit, hLine⟩ := h
  -- Brackets would be printed before the digit.
  have hWrapped := not_wrappedRight fun hInk => hInk.not_isDigit hb hDigit
  rw [rightMarks_of_not_wrapped hWrapped] at hb
  have hText := rightText_of_not_wrapped hWrapped
  split
  · rename_i hPower
    apply gapText_of_brace
    rw [hText]
    exact latex_of_beginsWithPower hPower
  · rename_i hPower
    -- The right factor does not begin in the upper part of a quotient, for the left one does not
    -- end there, and they meet in one line.
    have hLow : Shift.above ∉ b.line := by
      rw [← hLine]
      exact (endsLow_marks lhs).fencedIf _ a ha
    obtain hPower' | hAbove | ⟨c, hc, hcDigit⟩ :=
      first_printed hDigit (product_le_of_not_wrapped hWrapped) hb
    · exact absurd hPower' hPower
    · exact absurd hAbove hLow
    · -- Its text begins with the digit, so the thin space is there unless the left one is empty.
      have hLeft : lhs.leftText ≠ "" := by
        intro hEmpty
        have hNonempty : printed lhs.leftMarks ≠ [] := fun hNil => by simp [hNil] at ha
        refine ne_nil_of_printed hNonempty ?_
        rw [leftMarks, chars_fencedIf _ (chars_marks lhs)]
        exact String.toList_eq_nil_iff.mpr hEmpty
      exact gapText_of_digit hLeft (hText ▸ hc) hcDigit

/-- **Adjacent numbers are set apart.** A formula shows every product in it: the left factor, what
stands between the factors, and the right one. That is the thin space wherever the number that the
left factor ends with meets one that the right factor begins with, unless the right factor begins
with a power. -/
theorem meeting_numbers_apart (e lhs rhs : Expr) (h : (binary .mul lhs rhs).IsPart e) :
    (∃ before after, latex e =
        before ++ (lhs.leftText ++ gapText lhs rhs ++ rhs.rightText) ++ after) ∧
      Shows e.marks (lhs.leftMarks ++ write .silent (gapText lhs rhs) ++ rhs.rightMarks) ∧
      (NumbersMeet lhs.leftMarks rhs.rightMarks →
        gapText lhs rhs = if rhs.beginsWithPower then "" else "\\,") := by
  have hText := exists_latex_part h
  have hMarks := shows_part h
  rw [latex_mul] at hText
  rw [marks_mul] at hMarks
  exact ⟨hText, hMarks, gapText_of_meeting⟩

/-- The two and the three of a threefold twofold value are set apart. -/
theorem meeting_numbers_apart_twofold :
    let x : Expr := .var ⟨.plain "x", []⟩
    let twofold := Expr.binary .mul x (.literal 2)
    let e := Expr.neg (.binary .mul twofold (.literal 3))
    (binary .mul twofold (.literal 3)).IsPart e ∧
      NumbersMeet twofold.leftMarks (literal 3).rightMarks ∧
      gapText twofold (.literal 3) = "\\," ∧ latex e = "-x\\,2\\,3" := by
  intro x twofold e
  have hPart : (binary .mul twofold (.literal 3)).IsPart e :=
    Relation.ReflTransGen.single List.mem_cons_self
  have hMeet : NumbersMeet twofold.leftMarks (literal 3).rightMarks :=
    ⟨⟨'2', .number, []⟩, by decide +kernel, ⟨'3', .number, []⟩, by decide +kernel, by decide,
      by decide, rfl⟩
  obtain ⟨-, -, hGap⟩ := meeting_numbers_apart e twofold (.literal 3) hPart
  exact ⟨hPart, hMeet, hGap hMeet, by decide +kernel⟩

/-- The two and the base of a power of three run together: the text of the power begins with the
brace around the three. -/
theorem power_of_number_not_apart :
    let power := Expr.binary .pow (.literal 3) (.var ⟨.plain "x", []⟩)
    NumbersMeet (literal 2).leftMarks power.rightMarks ∧ gapText (.literal 2) power ≠ "\\," ∧
      latex (.binary .mul (.literal 2) power) = "2\x7b3\x7d^\x7bx\x7d" := by
  intro power
  have hMeet : NumbersMeet (literal 2).leftMarks power.rightMarks :=
    ⟨⟨'2', .number, []⟩, by decide +kernel, ⟨'3', .number, []⟩, by decide +kernel, by decide,
      by decide, rfl⟩
  exact ⟨hMeet, by decide +kernel, by decide +kernel⟩

end Expr

end ArrayEquations
