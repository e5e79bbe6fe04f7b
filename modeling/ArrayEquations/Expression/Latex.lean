import ArrayEquations.Expression
import ArrayEquations.Text.Alphanumeric

/-!
# ArrayEquations — formulas in LaTeX

Brackets stand where the strength of a part is less than its place asks for, and
nowhere else. A summation reaches as far to the right as it can, so one that ends a
left factor gets brackets too.

## Main definitions

* `Strength` — how tightly the parts of a formula hold together.
* `latex` — a formula, `latexEquation` an equation, and `latexProgram` a program.
-/

namespace ArrayEquations

/-- How tightly the parts of a formula hold together, loosest first. -/
inductive Strength where
  | sum | product | power | atom
  deriving DecidableEq, Repr

/-- The place of a strength in the order. -/
def Strength.level : Strength → Nat
  | .sum => 0
  | .product => 1
  | .power => 2
  | .atom => 3

instance : LT Strength := ⟨fun a b => a.level < b.level⟩
instance : LE Strength := ⟨fun a b => a.level ≤ b.level⟩
instance (a b : Strength) : Decidable (a < b) := inferInstanceAs (Decidable (a.level < b.level))
instance (a b : Strength) : Decidable (a ≤ b) := inferInstanceAs (Decidable (a.level ≤ b.level))

namespace Expr

/-- The strength of a formula as it is written. -/
def strength : Expr → Strength
  | .literal x => if isNegative x then .sum else .atom
  | .var _ | .call _ _ | .indicator _ _ _ => .atom
  | .binary op _ _ =>
    match op with
    | .add | .sub => .sum
    | .mul | .div => .product
    | .pow => .power
  | .neg _ => .sum
  | .sum _ _ => .product
  | .terms [single] => single.strength
  | .terms _ => .sum

/-- Whether the written formula ends in a summation, which would take in a factor behind it. -/
def endsInSum : Expr → Bool
  | .sum _ _ => true
  | .binary .mul _ rhs => Strength.product ≤ rhs.strength && rhs.endsInSum
  | .terms [single] => single.endsInSum
  | _ => false

end Expr

/-! ## Pieces -/

/-- A text between brackets that grow with it. -/
def bracketed (s : String) : String := "\\left(" ++ s ++ "\\right)"

/-- A text, between brackets if they are needed. -/
def bracketedIf (needed : Bool) (s : String) : String := if needed then bracketed s else s

/-- A text between braces. -/
def braced (s : String) : String := "\x7b" ++ s ++ "\x7d"

/-- Whether a text starts with a minus sign. -/
def startsWithMinus (s : String) : Bool := s.toList.head? == some '-'

/-- Two factors side by side. A thin space sets off a digit, and a blank keeps two letters from
running together. -/
def juxtaposed (lhs rhs : String) : String :=
  match lhs.toList.getLast?, rhs.toList.head? with
  | some last, some first =>
    if first.isDigit then lhs ++ "\\," ++ rhs
    else if isAlphanumeric last && isAlphanumeric first then lhs ++ " " ++ rhs
    else lhs ++ rhs
  | _, _ => lhs ++ rhs

/-- A comparison sign. -/
def Comparison.latex : Comparison → String
  | .lt => "<"
  | .le => "\\leq"
  | .gt => ">"
  | .ge => "\\geq"
  | .eq => "="
  | .ne => "\\neq"

/-- A symbol with its indices below it. -/
def Reference.latex (r : Reference) : String :=
  let indices := if r.indices.isEmpty then "" else "_" ++ braced (Index.rowText r.indices)
  r.symbol.name ++ indices ++ r.symbol.dependenciesText

/-- A named function of a written argument. -/
def NamedFunction.latex (f : NamedFunction) (argument : String) : String :=
  match f with
  | .sqrt => "\\sqrt" ++ braced argument
  | .relu => "\\mathrm" ++ braced "relu" ++ bracketed argument
  | f => "\\" ++ f.name ++ bracketed argument

/-- A summand behind a plus sign. -/
def addend (s : String) : String := " + " ++ bracketedIf (startsWithMinus s) s

/-! ## Formulas -/

mutual

/-- A formula in LaTeX. -/
def latex : Expr → String
  | .var r => r.latex
  | .literal x => literalText x
  | .binary op lhs rhs =>
    let l := latex lhs
    let r := latex rhs
    match op with
    | .add => l ++ addend r
    | .sub => l ++ " - " ++ bracketedIf (rhs.strength ≤ .sum) r
    | .mul =>
      juxtaposed (bracketedIf (lhs.strength < .product || lhs.endsInSum) l)
        (bracketedIf (rhs.strength < .product) r)
    | .div => braced (l ++ " \\over " ++ r)
    | .pow => braced (bracketedIf (lhs.strength < .atom) l) ++ "^" ++ braced r
  | .neg e => "-" ++ bracketedIf (e.strength ≤ .sum) (latex e)
  | .call f argument => f.latex (latex argument)
  | .indicator c lhs rhs =>
    "\\mathbb" ++ braced "1" ++ "_" ++ braced (latex lhs ++ " " ++ c.latex ++ " " ++ latex rhs)
  | .sum indices body =>
    "\\sum_" ++ braced (Index.rowText indices) ++
      bracketedIf (body.strength < .product) (latex body)
  | .terms [] => ""
  | .terms (t :: ts) => latex t ++ latexAddends ts

/-- The summands behind the first. -/
def latexAddends : List Expr → String
  | [] => ""
  | t :: ts => addend (latex t) ++ latexAddends ts

end

/-- An equation in LaTeX. -/
def latexEquation (e : Equation) : String := e.lhs.latex ++ " = " ++ latex e.rhs

/-- The equations of a program with a separator between them. -/
def latexProgram (separator : String) (p : Program) : String :=
  String.intercalate separator (p.map latexEquation)

/-- Written equations for display. -/
def aligned (text : String) : String :=
  "\\begin" ++ braced "aligned" ++ "\n" ++ text ++ "\n\\end" ++ braced "aligned"

end ArrayEquations
