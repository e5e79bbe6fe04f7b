import ArrayEquations.Proofs.SpelledTokens
import ArrayEquations.Script.Syntax
import Mathlib.Data.List.Forall2

/-!
# ArrayEquations — written scripts

The rows of tokens that scripts are written as, in any layout. A comma may stand before a closing
bracket, and lines may be empty. Brackets stand around a term where it is used as an operand of
something stronger than itself; in the wider sense, which the grammar allows, there may be others.

How strong an operator is and what it takes on its two sides is a table. Sums and products go on
to the right from what stands on their left, powers the other way round, and comparisons and
namings do not go on at all.

## Main definitions

* `Strength` — how strongly a term holds together.
* `Enclosed`, `Separated`, `Lined` — rows of items with commas or line ends between them.
* `Term.Written`, `SourceFile.Written` — the rows of a term, of a script.
* `Term.bare`, `SourceFile.bare` — what is left without the places in the source.
* `Term.Proper`, `SourceFile.Proper` — the syntax that names and numbers can be written for.

## Main results

* `Term.Proper.exists_written`, `SourceFile.Proper.exists_written` — it can be written.
-/

namespace ArrayEquations.Script

/-! ## Strength -/

/-- How strongly a term holds together, from the loosest on. -/
inductive Strength where
  | naming | comparison | sum | product | unary | atom
  deriving DecidableEq

namespace Strength

/-- The place in the order. -/
def rank : Strength → Nat
  | .naming => 0
  | .comparison => 1
  | .sum => 2
  | .product => 3
  | .unary => 4
  | .atom => 5

instance : LE Strength := ⟨fun l k => l.rank ≤ k.rank⟩

instance (l k : Strength) : Decidable (l ≤ k) := inferInstanceAs (Decidable (l.rank ≤ k.rank))

theorem naming_le (l : Strength) : naming ≤ l := Nat.zero_le l.rank

end Strength

namespace BinaryOp

/-- The mark of an operator. -/
def mark : BinaryOp → Mark
  | .arith .add => .plus
  | .arith .sub => .minus
  | .arith .mul => .star
  | .arith .div => .slash
  | .arith .pow => .caret
  | .matmul => .at
  | .compare .lt => .lt
  | .compare .le => .le
  | .compare .gt => .gt
  | .compare .ge => .ge
  | .compare .eq => .eq
  | .compare .ne => .ne

/-- How strong what an operator makes is. -/
def strength : BinaryOp → Strength
  | .arith .add | .arith .sub => .sum
  | .arith .mul | .arith .div | .matmul => .product
  | .arith .pow => .unary
  | .compare _ => .comparison

/-- How strong the left operand has to be. -/
def leftStrength : BinaryOp → Strength
  | .arith .add | .arith .sub => .sum
  | .arith .mul | .arith .div | .matmul => .product
  | .arith .pow => .atom
  | .compare _ => .sum

/-- How strong the right operand has to be. -/
def rightStrength : BinaryOp → Strength
  | .arith .add | .arith .sub => .product
  | .arith .mul | .arith .div | .matmul => .unary
  | .arith .pow => .unary
  | .compare _ => .sum

end BinaryOp

/-- How strong a term is. -/
def Term.strength : Term → Strength
  | .number _ _ | .dims _ _ | .var _ | .call _ _ _ => .atom
  | .neg _ _ => .unary
  | .binary _ op _ _ => op.strength
  | .named _ _ _ _ => .naming

/-- The number that a token stands for. -/
def Token.number? : Token → Option Float
  | .int n => some (Float.ofNat n)
  | .decimal x => some x
  | _ => none

/-! ## Rows of items -/

/-- Items with commas between them up to a closing mark; a comma may stand before it. -/
inductive Enclosed (closing : Mark) : List (List Token) → List Token → Prop
  | close : Enclosed closing [] [.mark closing]
  | last (item : List Token) : Enclosed closing [item] (item ++ [.mark closing])
  | more (item : List Token) {items : List (List Token)} {ts : List Token}
      (h : Enclosed closing items ts) :
      Enclosed closing (item :: items) (item ++ .mark .comma :: ts)

theorem Enclosed.length_lt {closing : Mark} {items : List (List Token)} {ts : List Token}
    (h : Enclosed closing items ts) : ∀ item ∈ items, item.length < ts.length := by
  induction h with
  | close => simp
  | last item => simp
  | more item h ih =>
    intro item' hItem
    rw [List.length_append, List.length_cons]
    rcases List.mem_cons.mp hItem with rfl | hItem
    · omega
    · exact Nat.lt_of_lt_of_le (ih item' hItem) (by omega)

/-- Items with commas between them, one at least. -/
inductive Separated : List (List Token) → List Token → Prop
  | last (item : List Token) : Separated [item] item
  | more (item : List Token) {items : List (List Token)} {ts : List Token}
      (h : Separated items ts) : Separated (item :: items) (item ++ .mark .comma :: ts)

/-- Items on lines of their own up to what closes them. Lines may be empty. -/
inductive Lined (closing : List Token) : List (List Token) → List Token → Prop
  | close (k : Nat) : Lined closing [] (List.replicate k .newline ++ closing)
  | last (k : Nat) (item : List Token) :
      Lined closing [item] (List.replicate k .newline ++ (item ++ closing))
  | more (k : Nat) (item : List Token) {items : List (List Token)} {ts : List Token}
      (h : Lined closing items ts) :
      Lined closing (item :: items) (List.replicate k .newline ++ (item ++ .newline :: ts))

/-! ## Rows of terms -/

/-- What a named value depends on stands in brackets, if it is given. -/
inductive DependenciesWritten : Option (List Identifier) → List Token → Prop
  | absent : DependenciesWritten none []
  | names {names : List Identifier} {ts : List Token}
      (h : Separated (names.map fun n => [.identifier n.name]) ts) :
      DependenciesWritten (some names) (.mark .leftParen :: (ts ++ [.mark .rightParen]))

/-- The rows of a term where it has to be of a strength, with spare brackets or without. -/
inductive Term.Written (spare : Prop) : Strength → Term → List Token → Prop
  | number {l : Strength} {span : Span} {x : Float} {t : Token} (h : t.number? = some x) :
      Term.Written spare l (.number span x) [t]
  | dims {l : Strength} {span : Span} {ns : List Nat} {ts : List Token}
      (h : Enclosed .rightBracket (ns.map fun n => [.int n]) ts) :
      Term.Written spare l (.dims span ns) (.mark .leftBracket :: ts)
  | var {l : Strength} {name : Identifier} :
      Term.Written spare l (.var name) [.identifier name.name]
  | call {l : Strength} {span : Span} {callee : Identifier} {arguments : List Term}
      {rows : List (List Token)} {ts : List Token} (hLength : arguments.length = rows.length)
      (h : ∀ p ∈ arguments.zip rows, Term.Written spare .naming p.1 p.2)
      (hRow : Enclosed .rightParen rows ts) :
      Term.Written spare l (.call span callee arguments)
        (.identifier callee.name :: .mark .leftParen :: ts)
  | neg {l : Strength} {span : Span} {e : Term} {ts : List Token} (hStrength : l ≤ .unary)
      (h : Term.Written spare .unary e ts) :
      Term.Written spare l (.neg span e) (.mark .minus :: ts)
  | binary {l : Strength} {span : Span} {op : BinaryOp} {lhs rhs : Term} {ts us : List Token}
      (hStrength : l ≤ op.strength) (hLeft : Term.Written spare op.leftStrength lhs ts)
      (hRight : Term.Written spare op.rightStrength rhs us) :
      Term.Written spare l (.binary span op lhs rhs) (ts ++ .mark op.mark :: us)
  | named {l : Strength} {span : Span} {value : Term} {name : Identifier}
      {dependsOn : Option (List Identifier)} {ts us : List Token} (hStrength : l ≤ .naming)
      (h : Term.Written spare .comparison value ts)
      (hDependsOn : DependenciesWritten dependsOn us) :
      Term.Written spare l (.named span value name dependsOn)
        (ts ++ .keyword .naming :: .identifier name.name :: us)
  | brackets {l : Strength} {e : Term} {ts : List Token} (hNeeded : spare ∨ ¬ l ≤ e.strength)
      (h : Term.Written spare .naming e ts) :
      Term.Written spare l e (.mark .leftParen :: (ts ++ [.mark .rightParen]))

/-! ## Rows of scripts -/

/-- The rows of a parameter. -/
inductive Parameter.Written : Parameter → List Token → Prop
  | scalar {p : Parameter} (h : p.shape = []) : Parameter.Written p [.identifier p.name.name]
  | array {p : Parameter} {ts : List Token}
      (h : Enclosed .rightBracket (p.shape.map fun n => [.int n]) ts) :
      Parameter.Written p (.identifier p.name.name :: .mark .colon :: .mark .leftBracket :: ts)

/-- The rows of a statement. -/
inductive Statement.Written (spare : Prop) : Statement → List Token → Prop
  | bind {span : Span} {name : Identifier} {value : Term} {ts : List Token}
      (h : value.Written spare .naming ts) :
      Statement.Written spare (.bind span name value)
        (.keyword .bind :: .identifier name.name :: .mark .equals :: ts)
  | result {span : Span} {values : List Term} {rows : List (List Token)} {ts : List Token}
      (h : List.Forall₂ (Term.Written spare .naming) values rows) (hRow : Separated rows ts) :
      Statement.Written spare (.result span values) (.keyword .result :: ts)

/-- The rows of a definition. -/
inductive Definition.Written (spare : Prop) : Definition → List Token → Prop
  | parts {d : Definition} {parameters statements : List (List Token)} {ts us : List Token}
      (hParameters : List.Forall₂ Parameter.Written d.parameters parameters)
      (hList : Enclosed .rightParen parameters ts)
      (hBody : List.Forall₂ (Statement.Written spare) d.body statements)
      (hLines : Lined [.mark .rightBrace] statements us) :
      Definition.Written spare d (.keyword .function :: .identifier d.name.name ::
        .mark .leftParen :: (ts ++ .mark .leftBrace :: us))

/-- The rows of a script. -/
inductive SourceFile.Written (spare : Prop) : SourceFile → List Token → Prop
  | lines {f : SourceFile} {rows : List (List Token)} {ts : List Token}
      (h : List.Forall₂ (Definition.Written spare) f.definitions rows) (hLines : Lined [] rows ts) :
      SourceFile.Written spare f ts

/-! ## Syntax without places -/

/-- A name at no place. -/
def Identifier.bare (n : Identifier) : Identifier := ⟨n.name, ⟨0, 0⟩⟩

/-- A term without its places. -/
def Term.bare : Term → Term
  | .number _ x => .number ⟨0, 0⟩ x
  | .dims _ ns => .dims ⟨0, 0⟩ ns
  | .var name => .var name.bare
  | .neg _ e => .neg ⟨0, 0⟩ e.bare
  | .binary _ op lhs rhs => .binary ⟨0, 0⟩ op lhs.bare rhs.bare
  | .call _ callee arguments => .call ⟨0, 0⟩ callee.bare (arguments.map Term.bare)
  | .named _ value name dependsOn =>
    .named ⟨0, 0⟩ value.bare name.bare (dependsOn.map (List.map Identifier.bare))

/-- A statement without its places. -/
def Statement.bare : Statement → Statement
  | .bind _ name value => .bind ⟨0, 0⟩ name.bare value.bare
  | .result _ values => .result ⟨0, 0⟩ (values.map Term.bare)

/-- A parameter without its places. -/
def Parameter.bare (p : Parameter) : Parameter := ⟨p.name.bare, p.shape, ⟨0, 0⟩⟩

/-- A definition without its places. -/
def Definition.bare (d : Definition) : Definition :=
  ⟨d.name.bare, d.parameters.map Parameter.bare, d.body.map Statement.bare, ⟨0, 0⟩⟩

/-- A script without its places. -/
def SourceFile.bare (f : SourceFile) : SourceFile :=
  ⟨f.definitions.map Definition.bare, ⟨0, 0⟩⟩

/-! ## Syntax that can be written -/

/-- The name is a word and not a keyword. -/
def Identifier.Proper (n : Identifier) : Prop :=
  IsWord n.name.toList ∧ Keyword.ofText? n.name = none

/-- The names are words, the numbers are those of tokens, and no list of dependencies is empty. -/
inductive Term.Proper : Term → Prop
  | number {span : Span} {x : Float} {t : Token} {cs : List Char} (h : t.number? = some x)
      (hSpells : Spells t cs) : Term.Proper (.number span x)
  | dims {span : Span} {ns : List Nat} (h : ∀ n ∈ ns, n < wordBound) : Term.Proper (.dims span ns)
  | var {name : Identifier} (h : name.Proper) : Term.Proper (.var name)
  | neg {span : Span} {e : Term} (h : Term.Proper e) : Term.Proper (.neg span e)
  | binary {span : Span} {op : BinaryOp} {lhs rhs : Term} (hLeft : Term.Proper lhs)
      (hRight : Term.Proper rhs) : Term.Proper (.binary span op lhs rhs)
  | call {span : Span} {callee : Identifier} {arguments : List Term} (hCallee : callee.Proper)
      (h : ∀ a ∈ arguments, Term.Proper a) : Term.Proper (.call span callee arguments)
  | named {span : Span} {value : Term} {name : Identifier} {dependsOn : Option (List Identifier)}
      (h : Term.Proper value) (hName : name.Proper)
      (hDependsOn : ∀ names ∈ dependsOn, names ≠ [] ∧ ∀ n ∈ names, n.Proper) :
      Term.Proper (.named span value name dependsOn)

/-- The parts can be written, and something is returned where it says so. -/
inductive Statement.Proper : Statement → Prop
  | bind {span : Span} {name : Identifier} {value : Term} (hName : name.Proper)
      (h : value.Proper) : Statement.Proper (.bind span name value)
  | result {span : Span} {values : List Term} (hNonempty : values ≠ [])
      (h : ∀ e ∈ values, e.Proper) : Statement.Proper (.result span values)

/-- The name and the extents can be written. -/
structure Parameter.Proper (p : Parameter) : Prop where
  name : p.name.Proper
  shape : ∀ n ∈ p.shape, n < wordBound

/-- The parts can be written. -/
structure Definition.Proper (d : Definition) : Prop where
  name : d.name.Proper
  parameters : ∀ p ∈ d.parameters, p.Proper
  body : ∀ s ∈ d.body, s.Proper

/-- The definitions can be written. -/
def SourceFile.Proper (f : SourceFile) : Prop := ∀ d ∈ f.definitions, d.Proper

/-! ## Scripts can be written -/

/-- Every token of the row has a spelling. -/
def Spellable (ts : List Token) : Prop := ∀ t ∈ ts, ∃ cs, Spells t cs

theorem spellable_nil : Spellable [] := fun _ ht => absurd ht List.not_mem_nil

theorem spellable_cons {t : Token} {ts : List Token} :
    Spellable (t :: ts) ↔ (∃ cs, Spells t cs) ∧ Spellable ts := List.forall_mem_cons

theorem spellable_append {ts us : List Token} :
    Spellable (ts ++ us) ↔ Spellable ts ∧ Spellable us := List.forall_mem_append

theorem spellable_keyword (k : Keyword) : ∃ cs, Spells (.keyword k) cs := ⟨_, .keyword k⟩

theorem spellable_mark (m : Mark) : ∃ cs, Spells (.mark m) cs := ⟨_, .mark m⟩

theorem spellable_newline : ∃ cs, Spells .newline cs := ⟨_, .newline 0⟩

theorem Identifier.Proper.spellable {n : Identifier} (h : n.Proper) :
    ∃ cs, Spells (.identifier n.name) cs := ⟨_, .identifier h.1 h.2⟩

theorem spellable_int {n : Nat} (h : n < wordBound) : ∃ cs, Spells (.int n) cs := by
  have hValue : digitsValue (digitsOf n) = n := Nat.ofDigitChars_ten_toDigits
  have hDigits : AreDigits (digitsOf n) :=
    ⟨Nat.toDigits_ne_nil, fun _ hc => isDigit_of_mem_digitsOf hc⟩
  have hSpells := Spells.int hDigits (by rwa [hValue])
  rw [hValue] at hSpells
  exact ⟨_, hSpells⟩

/-- Each name of a list is a row of its own. -/
theorem spellable_names {names : List Identifier} (h : ∀ n ∈ names, n.Proper) :
    ∀ row ∈ names.map (fun n => [Token.identifier n.name]), Spellable row := by
  intro row hRow
  obtain ⟨n, hn, rfl⟩ := List.mem_map.mp hRow
  exact spellable_cons.mpr ⟨(h n hn).spellable, spellable_nil⟩

/-- Each extent of a list is a row of its own. -/
theorem spellable_extents {ns : List Nat} (h : ∀ n ∈ ns, n < wordBound) :
    ∀ row ∈ ns.map (fun n => [Token.int n]), Spellable row := by
  intro row hRow
  obtain ⟨n, hn, rfl⟩ := List.mem_map.mp hRow
  exact spellable_cons.mpr ⟨spellable_int (h n hn), spellable_nil⟩

theorem exists_enclosed (closing : Mark) {items : List (List Token)}
    (h : ∀ row ∈ items, Spellable row) : ∃ ts, Enclosed closing items ts ∧ Spellable ts := by
  induction items with
  | nil => exact ⟨_, .close, spellable_cons.mpr ⟨spellable_mark closing, spellable_nil⟩⟩
  | cons item items ih =>
    obtain ⟨ts, hRow, hSpellable⟩ := ih fun row hRow => h row (List.mem_cons_of_mem item hRow)
    exact ⟨_, .more item hRow, spellable_append.mpr ⟨h item List.mem_cons_self,
      spellable_cons.mpr ⟨spellable_mark .comma, hSpellable⟩⟩⟩

theorem exists_separated {items : List (List Token)} (hNonempty : items ≠ [])
    (h : ∀ row ∈ items, Spellable row) : ∃ ts, Separated items ts ∧ Spellable ts := by
  induction items with
  | nil => exact absurd rfl hNonempty
  | cons item items ih =>
    have hItem := h item List.mem_cons_self
    cases items with
    | nil => exact ⟨item, .last item, hItem⟩
    | cons next items =>
      obtain ⟨ts, hRow, hSpellable⟩ := ih (List.cons_ne_nil next items)
        fun row hRow => h row (List.mem_cons_of_mem item hRow)
      exact ⟨_, .more item hRow, spellable_append.mpr ⟨hItem,
        spellable_cons.mpr ⟨spellable_mark .comma, hSpellable⟩⟩⟩

theorem exists_lined {closing : List Token} (hClosing : Spellable closing)
    {items : List (List Token)} (h : ∀ row ∈ items, Spellable row) :
    ∃ ts, Lined closing items ts ∧ Spellable ts := by
  induction items with
  | nil => exact ⟨closing, .close 0, hClosing⟩
  | cons item items ih =>
    obtain ⟨ts, hRow, hSpellable⟩ := ih fun row hRow => h row (List.mem_cons_of_mem item hRow)
    exact ⟨item ++ .newline :: ts, .more 0 item hRow, spellable_append.mpr
      ⟨h item List.mem_cons_self, spellable_cons.mpr ⟨spellable_newline, hSpellable⟩⟩⟩

/-- Each of some items has a row. -/
theorem exists_rows {α : Type} {written : α → List Token → Prop} {items : List α}
    (h : ∀ a ∈ items, ∃ ts, written a ts ∧ Spellable ts) :
    ∃ rows, List.Forall₂ written items rows ∧ ∀ row ∈ rows, Spellable row := by
  induction items with
  | nil => exact ⟨[], .nil, by simp⟩
  | cons a items ih =>
    obtain ⟨ts, hWritten, hSpellable⟩ := h a List.mem_cons_self
    obtain ⟨rows, hRows, hAll⟩ := ih fun b hb => h b (List.mem_cons_of_mem a hb)
    exact ⟨ts :: rows, .cons hWritten hRows, List.forall_mem_cons.mpr ⟨hSpellable, hAll⟩⟩

/-- A term that can be written where it is strong enough can be written anywhere. -/
theorem Term.exists_written_of_le {e : Term} {spare : Prop} {ts : List Token}
    (h : ∀ l, l ≤ e.strength → e.Written spare l ts) (hSpellable : Spellable ts) (l : Strength) :
    ∃ us, e.Written spare l us ∧ Spellable us := by
  by_cases hStrength : l ≤ e.strength
  · exact ⟨ts, h l hStrength, hSpellable⟩
  · refine ⟨_, .brackets (Or.inr hStrength) (h .naming (Strength.naming_le _)), ?_⟩
    exact spellable_cons.mpr ⟨spellable_mark .leftParen, spellable_append.mpr ⟨hSpellable,
      spellable_cons.mpr ⟨spellable_mark .rightParen, spellable_nil⟩⟩⟩

/-- **A proper term can be written wherever one may stand.** -/
theorem Term.Proper.exists_written {e : Term} (h : e.Proper) (spare : Prop) :
    ∀ l, ∃ ts, e.Written spare l ts ∧ Spellable ts := by
  induction h with
  | number h hSpells =>
    exact fun l => ⟨_, .number h, spellable_cons.mpr ⟨⟨_, hSpells⟩, spellable_nil⟩⟩
  | dims h =>
    obtain ⟨ts, hRow, hSpellable⟩ := exists_enclosed .rightBracket (spellable_extents h)
    exact fun l => ⟨_, .dims hRow, spellable_cons.mpr ⟨spellable_mark .leftBracket, hSpellable⟩⟩
  | var h => exact fun l => ⟨_, .var, spellable_cons.mpr ⟨h.spellable, spellable_nil⟩⟩
  | neg _ ih =>
    obtain ⟨ts, hOperand, hSpellable⟩ := ih .unary
    exact Term.exists_written_of_le (fun l hStrength => .neg hStrength hOperand)
      (spellable_cons.mpr ⟨spellable_mark .minus, hSpellable⟩)
  | @binary span op lhs rhs _ _ ihLeft ihRight =>
    obtain ⟨ts, hLeft, hLeftSpellable⟩ := ihLeft op.leftStrength
    obtain ⟨us, hRight, hRightSpellable⟩ := ihRight op.rightStrength
    exact Term.exists_written_of_le (fun l hStrength => .binary hStrength hLeft hRight)
      (spellable_append.mpr ⟨hLeftSpellable,
        spellable_cons.mpr ⟨spellable_mark op.mark, hRightSpellable⟩⟩)
  | call hCallee _ ih =>
    obtain ⟨rows, hRows, hAll⟩ := exists_rows fun a ha => ih a ha .naming
    obtain ⟨ts, hRow, hSpellable⟩ := exists_enclosed .rightParen hAll
    obtain ⟨hLength, hPairs⟩ := List.forall₂_iff_zip.mp hRows
    exact fun l => ⟨_, .call hLength (fun p hp => hPairs hp) hRow,
      spellable_cons.mpr ⟨hCallee.spellable, spellable_cons.mpr ⟨spellable_mark .leftParen,
        hSpellable⟩⟩⟩
  | @named span value name dependsOn _ hName hDependsOn ih =>
    obtain ⟨ts, hValue, hSpellable⟩ := ih .comparison
    -- The dependencies may be left out. If they are not, there is at least one.
    obtain ⟨us, hNames, hNamesSpellable⟩ :
        ∃ us, DependenciesWritten dependsOn us ∧ Spellable us := by
      cases dependsOn with
      | none => exact ⟨[], .absent, spellable_nil⟩
      | some names =>
        obtain ⟨hNonempty, hProper⟩ := hDependsOn names rfl
        obtain ⟨us, hRow, hRowSpellable⟩ := exists_separated (by simpa using hNonempty)
          (spellable_names hProper)
        exact ⟨_, .names hRow, spellable_cons.mpr ⟨spellable_mark .leftParen,
          spellable_append.mpr ⟨hRowSpellable,
            spellable_cons.mpr ⟨spellable_mark .rightParen, spellable_nil⟩⟩⟩⟩
    exact Term.exists_written_of_le (fun l hStrength => .named hStrength hValue hNames)
      (spellable_append.mpr ⟨hSpellable, spellable_cons.mpr ⟨spellable_keyword .naming,
        spellable_cons.mpr ⟨hName.spellable, hNamesSpellable⟩⟩⟩)

theorem Parameter.Proper.exists_written {p : Parameter} (h : p.Proper) :
    ∃ ts, p.Written ts ∧ Spellable ts := by
  obtain ⟨ts, hRow, hSpellable⟩ := exists_enclosed .rightBracket (spellable_extents h.shape)
  exact ⟨_, .array hRow, spellable_cons.mpr ⟨h.name.spellable, spellable_cons.mpr
    ⟨spellable_mark .colon, spellable_cons.mpr ⟨spellable_mark .leftBracket, hSpellable⟩⟩⟩⟩

theorem Statement.Proper.exists_written {s : Statement} (h : s.Proper) (spare : Prop) :
    ∃ ts, s.Written spare ts ∧ Spellable ts := by
  cases h with
  | bind hName h =>
    obtain ⟨ts, hValue, hSpellable⟩ := h.exists_written spare .naming
    exact ⟨_, .bind hValue, spellable_cons.mpr ⟨spellable_keyword .bind, spellable_cons.mpr
      ⟨hName.spellable, spellable_cons.mpr ⟨spellable_mark .equals, hSpellable⟩⟩⟩⟩
  | @result _ values hNonempty h =>
    obtain ⟨rows, hRows, hAll⟩ := exists_rows fun e he =>
      (h e he).exists_written spare .naming
    have hSome : rows ≠ [] := by
      rintro rfl
      exact hNonempty (List.forall₂_nil_right_iff.mp hRows)
    obtain ⟨ts, hRow, hSpellable⟩ := exists_separated hSome hAll
    exact ⟨_, .result hRows hRow, spellable_cons.mpr ⟨spellable_keyword .result, hSpellable⟩⟩

theorem Definition.Proper.exists_written {d : Definition} (h : d.Proper) (spare : Prop) :
    ∃ ts, d.Written spare ts ∧ Spellable ts := by
  obtain ⟨parameters, hParameters, hAll⟩ := exists_rows fun p hp =>
    (h.parameters p hp).exists_written
  obtain ⟨ts, hList, hListSpellable⟩ := exists_enclosed .rightParen hAll
  obtain ⟨statements, hBody, hLinesAll⟩ := exists_rows fun s hs =>
    (h.body s hs).exists_written spare
  obtain ⟨us, hLines, hLinesSpellable⟩ := exists_lined
    (spellable_cons.mpr ⟨spellable_mark .rightBrace, spellable_nil⟩) hLinesAll
  refine ⟨_, .parts hParameters hList hBody hLines, ?_⟩
  exact spellable_cons.mpr ⟨spellable_keyword .function, spellable_cons.mpr ⟨h.name.spellable,
    spellable_cons.mpr ⟨spellable_mark .leftParen, spellable_append.mpr ⟨hListSpellable,
      spellable_cons.mpr ⟨spellable_mark .leftBrace, hLinesSpellable⟩⟩⟩⟩⟩

/-- **A proper script can be written.** -/
theorem SourceFile.Proper.exists_written {f : SourceFile} (h : f.Proper) (spare : Prop) :
    ∃ ts, f.Written spare ts ∧ Spellable ts := by
  obtain ⟨rows, hRows, hAll⟩ := exists_rows fun d hd => (h d hd).exists_written spare
  obtain ⟨ts, hLines, hSpellable⟩ := exists_lined spellable_nil hAll
  exact ⟨ts, .lines hRows hLines, hSpellable⟩

end ArrayEquations.Script
