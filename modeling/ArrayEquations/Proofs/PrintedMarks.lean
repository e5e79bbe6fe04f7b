import ArrayEquations.Proofs.ReadFormula
import Mathlib.Logic.Relation

/-!
# ArrayEquations — the characters of a formula on the page

What is beside what on the page shows in the text only once it is known which characters print
something, and where: a brace prints nothing, an exponent stands higher than its base. Here the text
of a formula is written once more with this knowledge at each of its characters.

## Main definitions

* `Mark` — a character of a text as it comes out on the page.
* `Expr.marks` — the text of a formula in marks.
* `Expr.IsPart` — the parts of a formula.

## Main results

* `Expr.chars_marks` — the marks of a formula are the characters of its text.
* `Expr.shows_part`, `Expr.exists_latex_part` — the marks of a formula hold those of each of its
  parts, and so do the texts.
-/

namespace ArrayEquations

/-! ## Marks -/

/-- What a character of a text is on the page. -/
inductive Role where
  /-- A character of a number. -/
  | number
  /-- A character of anything else that is printed: a name, a sign, a bracket or a command. -/
  | ink
  /-- A character that prints nothing: a brace around a group, the sign that raises or lowers it, or
  a space between factors. -/
  | silent
  deriving DecidableEq, Repr

/-- How a group stands to the line that it is in. -/
inductive Shift where
  | raised
  | lowered
  /-- The upper part of a quotient. -/
  | above
  /-- The lower part of a quotient. -/
  | below
  deriving DecidableEq, Repr

/-- A character of a text as it comes out on the page. -/
structure Mark where
  char : Char
  role : Role
  /-- How the groups stand that it is in, outermost first. In one text two characters with the same
  shifts are in one line. -/
  line : List Shift
  deriving DecidableEq, Repr

namespace Mark

/-- A text in one role. -/
def write (role : Role) (s : String) : List Mark := s.toList.map fun c => ⟨c, role, []⟩

/-- Marks in a group that stands so. -/
def shifted (line : List Shift) (ms : List Mark) : List Mark :=
  ms.map fun m => { m with line := line ++ m.line }

/-- Marks between braces. -/
def grouped (ms : List Mark) : List Mark := write .silent "\x7b" ++ ms ++ write .silent "\x7d"

/-- Marks between brackets that grow with them. -/
def fenced (ms : List Mark) : List Mark := write .ink "\\left(" ++ ms ++ write .ink "\\right)"

/-- Marks, between brackets if they are needed. -/
def fencedIf (needed : Bool) (ms : List Mark) : List Mark := if needed then fenced ms else ms

/-- The characters of marks. -/
def chars (ms : List Mark) : List Char := ms.map (·.char)

/-- The marks that print something. -/
def printed (ms : List Mark) : List Mark := ms.filter (·.role != .silent)

/-- The mark is a digit of a number. -/
def IsDigit (m : Mark) : Prop := m.role = .number ∧ m.char.isDigit = true

instance (m : Mark) : Decidable m.IsDigit := inferInstanceAs (Decidable (_ ∧ _))

/-! ### Their characters -/

variable {ms ns : List Mark} {s t : String}

@[simp] theorem chars_append (ms ns : List Mark) : chars (ms ++ ns) = chars ms ++ chars ns :=
  List.map_append

@[simp] theorem chars_write (role : Role) (s : String) : chars (write role s) = s.toList := by
  simp [chars, write, Function.comp_def]

@[simp] theorem chars_shifted (line : List Shift) (ms : List Mark) :
    chars (shifted line ms) = chars ms := by
  simp [chars, shifted, Function.comp_def]

theorem chars_grouped (h : chars ms = s.toList) : chars (grouped ms) = (braced s).toList := by
  simp [grouped, braced, h]

theorem chars_fencedIf (needed : Bool) (h : chars ms = s.toList) :
    chars (fencedIf needed ms) = (bracketedIf needed s).toList := by
  cases needed with
  | false => exact h
  | true => simp [fencedIf, fenced, bracketedIf, bracketed, h]

/-! ### What they print -/

@[simp] theorem printed_append (ms ns : List Mark) :
    printed (ms ++ ns) = printed ms ++ printed ns := List.filter_append ..

@[simp] theorem printed_silent (s : String) : printed (write .silent s) = [] := by
  simp [printed, write]

@[simp] theorem printed_ink (s : String) : printed (write .ink s) = write .ink s := by
  simp [printed, write]

@[simp] theorem printed_number (s : String) : printed (write .number s) = write .number s := by
  simp [printed, write]

@[simp] theorem printed_shifted (line : List Shift) (ms : List Mark) :
    printed (shifted line ms) = shifted line (printed ms) := by
  rw [printed, shifted, List.filter_map]
  rfl

@[simp] theorem printed_grouped (ms : List Mark) : printed (grouped ms) = printed ms := by
  simp [grouped]

/-! ### Groups in groups -/

theorem shifted_append (line : List Shift) (ms ns : List Mark) :
    shifted line (ms ++ ns) = shifted line ms ++ shifted line ns := List.map_append

theorem shifted_shifted (outer inner : List Shift) (ms : List Mark) :
    shifted outer (shifted inner ms) = shifted (outer ++ inner) ms := by
  simp [shifted, Function.comp_def, List.append_assoc]

theorem shifted_nil (ms : List Mark) : shifted [] ms = ms := by simp [shifted]

end Mark

open Mark

/-! ## Formulas in marks -/

/-- The indices below a symbol. -/
def subscript (indices : List Index) : List Mark :=
  write .silent "_" ++ grouped (shifted [.lowered] (write .ink (Index.rowText indices)))

/-- A symbol with its indices, in marks. -/
def Reference.marks (r : Reference) : List Mark :=
  write .ink r.symbol.name ++ (if r.indices.isEmpty then [] else subscript r.indices) ++
    write .ink r.symbol.dependenciesText

/-- A named function of an argument, in marks. -/
def NamedFunction.marks (f : NamedFunction) (argument : List Mark) : List Mark :=
  match f with
  | .sqrt => write .ink "\\sqrt" ++ grouped argument
  | .relu => write .ink "\\mathrm" ++ grouped (write .ink "relu") ++ fenced argument
  | f => write .ink ("\\" ++ f.name) ++ fenced argument

namespace Expr

/-- Whether a formula gets brackets as a left factor. -/
def isWrappedLeft (e : Expr) : Bool := e.strength < .product || e.endsInSum

/-- Whether a formula gets brackets as a right factor. -/
def isWrappedRight (e : Expr) : Bool := e.strength < .product

/-- The text of a formula as a left factor. -/
def leftText (e : Expr) : String := bracketedIf e.isWrappedLeft (latex e)

/-- The text of a formula as a right factor. -/
def rightText (e : Expr) : String := bracketedIf e.isWrappedRight (latex e)

/-- What stands between the texts of two factors. -/
def gapText (lhs rhs : Expr) : String :=
  String.ofList (Written.gap lhs.leftText.toList rhs.rightText.toList)

mutual

/-- The text of a formula in marks. -/
def marks : Expr → List Mark
  | .var r => r.marks
  | .literal x => write .number (literalText x)
  | .binary op lhs rhs =>
    let l := lhs.marks
    let r := rhs.marks
    match op with
    | .add => l ++ (write .ink " + " ++ fencedIf (startsWithMinus (latex rhs)) r)
    | .sub => l ++ write .ink " - " ++ fencedIf (rhs.strength ≤ .sum) r
    | .mul =>
      fencedIf lhs.isWrappedLeft l ++ write .silent (gapText lhs rhs) ++
        fencedIf rhs.isWrappedRight r
    | .div => grouped (shifted [.above] l ++ write .ink " \\over " ++ shifted [.below] r)
    | .pow =>
      grouped (fencedIf (lhs.strength < .atom) l) ++ write .silent "^" ++
        grouped (shifted [.raised] r)
  | .neg e => write .ink "-" ++ fencedIf (e.strength ≤ .sum) e.marks
  | .call f argument => f.marks argument.marks
  | .indicator c lhs rhs =>
    write .ink "\\mathbb" ++ grouped (write .ink "1") ++ write .silent "_" ++
      grouped (shifted [.lowered]
        (lhs.marks ++ write .ink (" " ++ c.latex ++ " ") ++ rhs.marks))
  | .sum indices body =>
    write .ink "\\sum" ++ subscript indices ++ fencedIf (body.strength < .product) body.marks
  | .terms [] => []
  | .terms (t :: ts) => t.marks ++ marksAddends ts

/-- The summands behind the first, in marks. -/
def marksAddends : List Expr → List Mark
  | [] => []
  | t :: ts => write .ink " + " ++ fencedIf (startsWithMinus (latex t)) t.marks ++ marksAddends ts

end

/-- A left factor in marks. -/
def leftMarks (e : Expr) : List Mark := fencedIf e.isWrappedLeft e.marks

/-- A right factor in marks. -/
def rightMarks (e : Expr) : List Mark := fencedIf e.isWrappedRight e.marks

theorem latex_mul (lhs rhs : Expr) :
    latex (.binary .mul lhs rhs) = lhs.leftText ++ gapText lhs rhs ++ rhs.rightText := by
  apply String.toList_inj.mp
  rw [latex, String.toList_append, String.toList_append, gapText, String.toList_ofList]
  exact Written.toList_juxtaposed _ _

/-! ### The text of the marks -/

theorem chars_subscript (indices : List Index) :
    chars (subscript indices) = ("_" ++ braced (Index.rowText indices)).toList := by
  have hRow : chars (shifted [.lowered] (write .ink (Index.rowText indices))) =
      (Index.rowText indices).toList := by simp
  rw [subscript, chars_append, chars_grouped hRow, chars_write, String.toList_append]

theorem chars_reference (r : Reference) : chars r.marks = r.latex.toList := by
  unfold Reference.marks Reference.latex
  split <;> simp [chars_subscript, *]

theorem chars_function (f : NamedFunction) {ms : List Mark} {s : String}
    (h : chars ms = s.toList) : chars (f.marks ms) = (f.latex s).toList := by
  have hFenced : chars (fenced ms) = (bracketed s).toList := chars_fencedIf true h
  cases f with
  | sqrt => simp [NamedFunction.marks, NamedFunction.latex, chars_grouped h]
  | relu =>
    have hName : chars (grouped (write .ink "relu")) = (braced "relu").toList :=
      chars_grouped (chars_write _ _)
    simp [NamedFunction.marks, NamedFunction.latex, hName, hFenced]
  | _ => simp [NamedFunction.marks, NamedFunction.latex, hFenced]

theorem chars_marksAddends {ts : List Expr} (h : ∀ t ∈ ts, chars t.marks = (latex t).toList) :
    chars (marksAddends ts) = (latexAddends ts).toList := by
  induction ts with
  | nil => simp [marksAddends, latexAddends, chars]
  | cons t ts ih =>
    obtain ⟨hFirst, hRest⟩ := List.forall_mem_cons.mp h
    simp [marksAddends, latexAddends, addend, chars_fencedIf _ hFirst, ih hRest]

/-- **The marks of a formula are the characters of its text.** -/
theorem chars_marks (e : Expr) : chars e.marks = (latex e).toList := by
  -- A group, or brackets, is put around marks where it is put around their text; a shift changes no
  -- character.
  induction e using Expr.inductionOn with
  | var r => rw [marks, latex, chars_reference]
  | literal x => rw [marks, latex, chars_write]
  | binary op lhs rhs ihLhs ihRhs =>
    cases op with
    | add => simp [marks, latex, addend, ihLhs, chars_fencedIf _ ihRhs]
    | sub => simp [marks, latex, ihLhs, chars_fencedIf _ ihRhs]
    | mul =>
      -- the text as factors with what stands between them, as the marks have it
      rw [latex_mul]
      simp [marks, leftText, rightText, chars_fencedIf _ ihLhs, chars_fencedIf _ ihRhs]
    | div =>
      have hInner : chars (shifted [.above] lhs.marks ++ write .ink " \\over " ++
          shifted [.below] rhs.marks) = (latex lhs ++ " \\over " ++ latex rhs).toList := by
        simp [ihLhs, ihRhs]
      rw [marks, latex, chars_grouped hInner]
    | pow =>
      have hBase := chars_grouped (chars_fencedIf (lhs.strength < .atom) ihLhs)
      have hExponent :
          chars (grouped (shifted [.raised] rhs.marks)) = (braced (latex rhs)).toList :=
        chars_grouped ((chars_shifted _ _).trans ihRhs)
      simp [marks, latex, hBase, hExponent]
  | neg e ih => simp [marks, latex, chars_fencedIf _ ih]
  | call f argument ih => rw [marks, latex, chars_function f ih]
  | indicator c lhs rhs ihLhs ihRhs =>
    have hOne : chars (grouped (write .ink "1")) = (braced "1").toList :=
      chars_grouped (chars_write _ _)
    have hInner : chars (shifted [.lowered] (lhs.marks ++ write .ink (" " ++ c.latex ++ " ") ++
        rhs.marks)) = (latex lhs ++ " " ++ c.latex ++ " " ++ latex rhs).toList := by
      simp [ihLhs, ihRhs]
    rw [marks, latex, chars_append, chars_grouped hInner]
    simp [hOne]
  | sum indices body ih => simp [marks, latex, chars_subscript, chars_fencedIf _ ih]
  | terms ts ih =>
    cases ts with
    | nil => rfl
    | cons t ts =>
      obtain ⟨hFirst, hRest⟩ := List.forall_mem_cons.mp ih
      rw [marks, latex, chars_append, chars_marksAddends hRest, hFirst, String.toList_append]

end Expr

/-! ## Parts -/

namespace Mark

/-- The first marks show the second ones, in a group of theirs. -/
def Shows (whole part : List Mark) : Prop :=
  ∃ before line after, whole = before ++ shifted line part ++ after

namespace Shows

variable {whole part ms ns : List Mark}

theorem refl (ms : List Mark) : Shows ms ms := ⟨[], [], [], by simp [shifted_nil]⟩

theorem trans (h : Shows whole ms) (h' : Shows ms part) : Shows whole part := by
  obtain ⟨before, line, after, rfl⟩ := h
  obtain ⟨before', line', after', rfl⟩ := h'
  -- What is around the inner part stands in the group of the outer one.
  refine ⟨before ++ shifted line before', line ++ line', shifted line after' ++ after, ?_⟩
  simp only [shifted_append, shifted_shifted, List.append_assoc]

theorem append_left (h : Shows ms part) (ns : List Mark) : Shows (ns ++ ms) part := by
  obtain ⟨before, line, after, rfl⟩ := h
  exact ⟨ns ++ before, line, after, by simp only [List.append_assoc]⟩

theorem append_right (h : Shows ms part) (ns : List Mark) : Shows (ms ++ ns) part := by
  obtain ⟨before, line, after, rfl⟩ := h
  exact ⟨before, line, after ++ ns, by simp only [List.append_assoc]⟩

theorem shifted (line : List Shift) (ms : List Mark) : Shows (shifted line ms) ms :=
  ⟨[], line, [], by simp⟩

theorem grouped (h : Shows ms part) : Shows (grouped ms) part :=
  (h.append_left _).append_right _

theorem fencedIf (needed : Bool) (h : Shows ms part) : Shows (fencedIf needed ms) part := by
  cases needed with
  | false => exact h
  | true => exact (h.append_left _).append_right _

end Shows

end Mark

namespace Expr

/-- The formulas that a formula is made of. -/
def children : Expr → List Expr
  | .var _ | .literal _ => []
  | .binary _ lhs rhs | .indicator _ lhs rhs => [lhs, rhs]
  | .neg e | .call _ e | .sum _ e => [e]
  | .terms ts => ts

/-- The first formula is the second one, or one of those that it is made of at any depth. -/
def IsPart : Expr → Expr → Prop := Relation.ReflTransGen fun part whole => part ∈ whole.children

theorem shows_marksAddends {t : Expr} {ts : List Expr} (h : t ∈ ts) :
    Shows (marksAddends ts) t.marks := by
  induction ts with
  | nil => exact absurd h List.not_mem_nil
  | cons u ts ih =>
    rw [marksAddends]
    rcases List.mem_cons.mp h with rfl | h
    · exact (((Shows.refl _).fencedIf _).append_left _).append_right _
    · exact (ih h).append_left _

theorem shows_binary (op : Arith) (lhs rhs : Expr) :
    Shows (binary op lhs rhs).marks lhs.marks ∧ Shows (binary op lhs rhs).marks rhs.marks := by
  -- An operand is shown as it stands, between fences, or moved into a line of a fraction or an
  -- exponent.
  cases op with
  | add =>
    rw [marks]
    exact ⟨(Shows.refl _).append_right _,
      (((Shows.refl _).fencedIf _).append_left _).append_left _⟩
  | sub =>
    rw [marks]
    exact ⟨((Shows.refl _).append_right _).append_right _,
      ((Shows.refl _).fencedIf _).append_left _⟩
  | mul =>
    rw [marks]
    exact ⟨(((Shows.refl _).fencedIf _).append_right _).append_right _,
      ((Shows.refl _).fencedIf _).append_left _⟩
  | div =>
    rw [marks]
    exact ⟨(((Shows.shifted _ _).append_right _).append_right _).grouped,
      ((Shows.shifted _ _).append_left _).grouped⟩
  | pow =>
    rw [marks]
    exact ⟨((((Shows.refl _).fencedIf _).grouped).append_right _).append_right _,
      ((Shows.shifted _ _).grouped).append_left _⟩

/-- A formula shows what it is made of. -/
theorem shows_child {part e : Expr} (h : part ∈ e.children) : Shows e.marks part.marks := by
  cases e with
  | var r | literal x => exact absurd h List.not_mem_nil
  | binary op lhs rhs =>
    obtain ⟨hLhs, hRhs⟩ := shows_binary op lhs rhs
    rcases List.mem_pair.mp h with rfl | rfl
    · exact hLhs
    · exact hRhs
  | neg e =>
    obtain rfl := List.mem_singleton.mp h
    rw [marks]
    exact ((Shows.refl _).fencedIf _).append_left _
  | call f argument =>
    obtain rfl := List.mem_singleton.mp h
    rw [marks]
    have hFenced : Shows (fenced part.marks) part.marks := (Shows.refl _).fencedIf true
    cases f with
    | sqrt => exact (Shows.refl _).grouped.append_left _
    -- `relu` has its name in a group, the other functions have it as a command
    | relu => exact hFenced.append_left _
    | _ => exact hFenced.append_left _
  | indicator c lhs rhs =>
    rw [marks]
    rcases List.mem_pair.mp h with rfl | rfl
    · have hInner := ((Shows.refl part.marks).append_right
        (write .ink (" " ++ c.latex ++ " "))).append_right rhs.marks
      exact (((Shows.shifted _ _).trans hInner).grouped).append_left _
    · have hInner := (Shows.refl part.marks).append_left
        (lhs.marks ++ write .ink (" " ++ c.latex ++ " "))
      exact (((Shows.shifted _ _).trans hInner).grouped).append_left _
  | sum indices body =>
    obtain rfl := List.mem_singleton.mp h
    rw [marks]
    exact ((Shows.refl _).fencedIf _).append_left _
  | terms ts =>
    cases ts with
    | nil => exact absurd h List.not_mem_nil
    | cons t ts =>
      rw [marks]
      rcases List.mem_cons.mp h with rfl | h
      · exact (Shows.refl _).append_right _
      · exact (shows_marksAddends h).append_left _

/-- **A formula shows all of its parts.** -/
theorem shows_part {part e : Expr} (h : part.IsPart e) : Shows e.marks part.marks := by
  induction h with
  | refl => exact Shows.refl _
  | tail _ hChild ih => exact (shows_child hChild).trans ih

/-- So the text of a part is in the text of the formula. -/
theorem exists_latex_part {part e : Expr} (h : part.IsPart e) :
    ∃ before after, latex e = before ++ latex part ++ after := by
  obtain ⟨before, line, after, hMarks⟩ := shows_part h
  refine ⟨String.ofList (chars before), String.ofList (chars after), String.toList_inj.mp ?_⟩
  -- the group in which the part is shown does not change its characters
  rw [← chars_marks, hMarks]
  simp [chars_marks]

end Expr

end ArrayEquations
