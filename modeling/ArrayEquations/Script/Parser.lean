import ArrayEquations.Script.Lexer
import ArrayEquations.Script.Syntax

/-!
# ArrayEquations — from tokens to syntax

The grammar, in which `LINES` is any number of line ends:

```text
file       := LINES (definition (LINE LINES definition)* LINES)?
definition := 'fn' NAME '(' (parameter (',' parameter)* ','?)? ')' body
body       := '{' LINES (statement (LINE LINES statement)* LINES)? '}'
parameter  := NAME (':' dims)?
dims       := '[' (INT (',' INT)* ','?)? ']'
statement  := 'let' NAME '=' term | 'return' term (',' term)*
term       := comparison ('as' NAME ('(' NAME (',' NAME)* ')')?)?
comparison := sum (('<' | '<=' | '>' | '>=' | '==' | '!=') sum)?
sum        := product (('+' | '-') product)*
product    := unary (('*' | '/' | '@') unary)*
unary      := '-' unary | atom ('^' unary)?
atom       := NUMBER | dims | NAME ('(' (term (',' term)* ','?)? ')')? | '(' term ')'
```

The next token alone decides how to go on, so reading stops at the first token that no
script can have there.

## Main definitions

* `Reading` — an action that takes tokens from the front.
* `term`, `statement`, `definition` — the rules of the grammar.
* `parse` — a source as a file, with its faults.
-/

namespace ArrayEquations.Script

/-- The tokens that are left, and the place where the last token taken ends. -/
structure Cursor where
  rest : List Lexeme
  reached : Nat

/-- An action that takes tokens from the front. It fails with the tokens that are left where no
rule goes on: the first of them is wrong, or more is needed if there is none. -/
abbrev Reading := StateT Cursor (Except (List Lexeme))

namespace Reading

/-! ## Single tokens -/

/-- Stops at the next token. -/
def stuck {α : Type} : Reading α := fun c => .error c.rest

/-- The next token. -/
def peek : Reading (Option Token) := return (← get).rest.head?.map (·.token)

/-- Takes the next token. -/
def advance : Reading Unit := fun c =>
  match c.rest with
  | [] => .error []
  | t :: rest => .ok ((), ⟨rest, t.span.stop⟩)

/-- How many tokens are left. -/
def remaining : Reading Nat := return (← get).rest.length

/-- Where the next token starts. -/
def place : Reading Nat := do
  let c ← get
  return (c.rest.head?.map (·.span.start)).getD c.reached

/-- The range from a place to the end of the last token taken. -/
def spanFrom (start : Nat) : Reading Span := return ⟨start, (← get).reached⟩

/-- Takes the next token if it is the one given, and says whether it was. -/
def accept (t : Token) : Reading Bool := do
  if (← peek) = some t then
    advance
    return true
  return false

/-- Takes the token given. -/
def expect (t : Token) : Reading Unit := do
  if !(← accept t) then stuck

/-- Takes the mark given. -/
def expectMark (m : Mark) : Reading Unit := expect (.mark m)

/-- Takes a name. -/
def identifier : Reading Identifier := do
  let start ← place
  match ← peek with
  | some (.identifier name) =>
    advance
    return ⟨name, ← spanFrom start⟩
  | _ => stuck

/-- Takes a whole number. -/
def natural : Reading Nat := do
  match ← peek with
  | some (.int n) =>
    advance
    return n
  | _ => stuck

/-- The cursor behind all line ends at the front. -/
def behindLines : List Lexeme → Nat → Cursor
  | [], reached => ⟨[], reached⟩
  | t :: rest, reached =>
    if t.token = .newline then behindLines rest t.span.stop else ⟨t :: rest, reached⟩

/-- Takes all line ends at the front. -/
def skipLines : Reading Unit := modify fun c => behindLines c.rest c.reached

/-! ## Lists -/

/-- Items with commas between them, where at most `fuel` tokens are left. -/
def itemsWithin {α : Type} (item : Reading α) : Nat → Reading (List α)
  | 0 => stuck
  | fuel + 1 => do
    let a ← item
    if ← accept (.mark .comma) then return a :: (← itemsWithin item fuel)
    return [a]

/-- One item or more with commas between them. -/
def items {α : Type} (item : Reading α) : Reading (List α) := do
  itemsWithin item (← remaining)

/-- Items up to a closing mark, where at most `fuel` tokens are left. -/
def closedWithin {α : Type} (item : Reading α) (closing : Mark) : Nat → Reading (List α)
  | 0 => stuck
  | fuel + 1 => do
    if ← accept (.mark closing) then return []
    let a ← item
    if ← accept (.mark .comma) then return a :: (← closedWithin item closing fuel)
    expectMark closing
    return [a]

/-- Items with commas between them up to a closing mark; a comma may stand before it. -/
def closed {α : Type} (item : Reading α) (closing : Mark) : Reading (List α) := do
  closedWithin item closing (← remaining)

/-! ## Terms -/

/-- A list of whole numbers between square brackets. -/
def dims : Reading (List Nat) := do
  expectMark .leftBracket
  closed natural .rightBracket

/-- An atom, with the rule for the terms inside it. -/
def atom (inner : Reading Term) : Reading Term := do
  let start ← place
  match ← peek with
  | some (.int n) =>
    advance
    return .number (← spanFrom start) (Float.ofNat n)
  | some (.decimal x) =>
    advance
    return .number (← spanFrom start) x
  | some (.mark .leftBracket) =>
    let ns ← dims
    return .dims (← spanFrom start) ns
  | some (.identifier _) =>
    let name ← identifier
    if ← accept (.mark .leftParen) then
      let arguments ← closed inner .rightParen
      return .call (← spanFrom start) name arguments
    return .var name
  | some (.mark .leftParen) =>
    advance
    let e ← inner
    expectMark .rightParen
    return e
  | _ => stuck

/-- A negation or a power, where at most `fuel` tokens are left. -/
def unaryWithin (atom : Reading Term) : Nat → Reading Term
  | 0 => stuck
  | fuel + 1 => do
    let start ← place
    if ← accept (.mark .minus) then
      let operand ← unaryWithin atom fuel
      return .neg (← spanFrom start) operand
    let base ← atom
    if ← accept (.mark .caret) then
      let exponent ← unaryWithin atom fuel
      return .binary (← spanFrom start) (.arith .pow) base exponent
    return base

/-- A negation or a power over atoms. -/
def unary (atom : Reading Term) : Reading Term := do unaryWithin atom (← remaining)

/-- Goes on a chain of operators of one strength that starts at a place, where at most `fuel`
tokens are left. -/
def chainFrom (op? : Token → Option BinaryOp) (operand : Reading Term) (start : Nat) :
    Nat → Term → Reading Term
  | 0, lhs => return lhs
  | fuel + 1, lhs => do
    match (← peek).bind op? with
    | none => return lhs
    | some op =>
      advance
      let rhs ← operand
      chainFrom op? operand start fuel (.binary (← spanFrom start) op lhs rhs)

/-- Operands with operators of one strength between them, which bind to the left. -/
def chain (op? : Token → Option BinaryOp) (operand : Reading Term) : Reading Term := do
  let start ← place
  let first ← operand
  chainFrom op? operand start (← remaining) first

/-- The operators of products. -/
def productOp? : Token → Option BinaryOp
  | .mark .star => some (.arith .mul)
  | .mark .slash => some (.arith .div)
  | .mark .at => some .matmul
  | _ => none

/-- The operators of sums. -/
def sumOp? : Token → Option BinaryOp
  | .mark .plus => some (.arith .add)
  | .mark .minus => some (.arith .sub)
  | _ => none

/-- The operators of comparisons. -/
def comparisonOp? : Token → Option BinaryOp
  | .mark .lt => some (.compare .lt)
  | .mark .le => some (.compare .le)
  | .mark .gt => some (.compare .gt)
  | .mark .ge => some (.compare .ge)
  | .mark .eq => some (.compare .eq)
  | .mark .ne => some (.compare .ne)
  | _ => none

/-- A comparison of two operands, or one operand alone. -/
def comparison (operand : Reading Term) : Reading Term := do
  let start ← place
  let lhs ← operand
  match (← peek).bind comparisonOp? with
  | none => return lhs
  | some op =>
    advance
    let rhs ← operand
    return .binary (← spanFrom start) op lhs rhs

/-- The values that a name is said to depend on, if a bracket opens here. -/
def dependencies : Reading (Option (List Identifier)) := do
  if ← accept (.mark .leftParen) then
    let names ← items identifier
    expectMark .rightParen
    return some names
  return none

/-- A value that may get a name. -/
def naming (value : Reading Term) : Reading Term := do
  let start ← place
  let value ← value
  if ← accept (.keyword .naming) then
    let name ← identifier
    let dependsOn ← dependencies
    return .named (← spanFrom start) value name dependsOn
  return value

/-- A term, where at most `fuel` tokens are left. -/
def termWithin : Nat → Reading Term
  | 0 => stuck
  | fuel + 1 =>
    naming (comparison (chain sumOp? (chain productOp? (unary (atom (termWithin fuel))))))

/-- A term. -/
def term : Reading Term := do termWithin (← remaining)

/-! ## Statements and definitions -/

/-- A statement. -/
def statement : Reading Statement := do
  let start ← place
  if ← accept (.keyword .bind) then
    let name ← identifier
    expectMark .equals
    let value ← term
    return .bind (← spanFrom start) name value
  expect (.keyword .result)
  let values ← items term
  return .result (← spanFrom start) values

/-- Statements on lines of their own up to the closing brace, where at most `fuel` tokens are
left. -/
def statementsWithin : Nat → Reading (List Statement)
  | 0 => stuck
  | fuel + 1 => do
    skipLines
    if ← accept (.mark .rightBrace) then return []
    let s ← statement
    if (← peek) = some .newline then return s :: (← statementsWithin fuel)
    expectMark .rightBrace
    return [s]

/-- The body of a function. -/
def body : Reading (List Statement) := do
  expectMark .leftBrace
  statementsWithin (← remaining)

/-- A parameter. -/
def parameter : Reading Parameter := do
  let start ← place
  let name ← identifier
  let shape ← if ← accept (.mark .colon) then dims else pure []
  return ⟨name, shape, ← spanFrom start⟩

/-- A definition. -/
def definition : Reading Definition := do
  let start ← place
  expect (.keyword .function)
  let name ← identifier
  expectMark .leftParen
  let parameters ← closed parameter .rightParen
  let body ← body
  return ⟨name, parameters, body, ← spanFrom start⟩

/-- Definitions on lines of their own up to the end, where at most `fuel` tokens are left. -/
def definitionsWithin : Nat → Reading (List Definition)
  | 0 => return []
  | fuel + 1 => do
    skipLines
    if (← peek).isNone then return []
    let d ← definition
    match ← peek with
    | none => return [d]
    | some .newline => return d :: (← definitionsWithin fuel)
    | some _ => stuck

/-- A file. -/
def file : Reading SourceFile := do
  let start ← place
  let definitions ← definitionsWithin (← remaining)
  return ⟨definitions, ← spanFrom start⟩

end Reading

/-! ## Sources -/

/-- A token at which no rule of the grammar goes on, or the end of the source. -/
structure SyntaxError where
  found : Option Token
  span : Span
  deriving DecidableEq

/-- The text of a syntax error. -/
def SyntaxError.message (e : SyntaxError) : String :=
  match e.found with
  | some t => s!"found '{t.text}'"
  | none => "found end of input"

/-- A fault in a source. -/
inductive Fault where
  | lexical (e : LexError)
  | grammatical (e : SyntaxError)

/-- The text of a fault. -/
def Fault.message : Fault → String
  | .lexical e => e.message
  | .grammatical e => e.message

/-- The place of a fault. -/
def Fault.span : Fault → Span
  | .lexical e => e.span
  | .grammatical e => e.span

/-- The file of a list of tokens in a source of a length. -/
def parseTokens (length : Nat) (tokens : List Lexeme) : Except SyntaxError SourceFile :=
  match Reading.file.run ⟨tokens, length⟩ with
  | .ok (f, _) => .ok f
  | .error (t :: _) => .error ⟨some t.token, t.span⟩
  | .error [] => .error ⟨none, ⟨length, length⟩⟩

/-- What a source is read as. -/
structure Parsed where
  /-- The file; none after a syntax error. -/
  file : Option SourceFile
  faults : List Fault

/-- A source as a file. Unknown pieces are left out; they come first among the faults. -/
def parse (source : String) : Parsed :=
  let lexed := lex source
  let lexical := lexed.errors.map Fault.lexical
  match parseTokens source.utf8ByteSize lexed.tokens with
  | .ok f => ⟨some f, lexical⟩
  | .error e => ⟨none, lexical ++ [.grammatical e]⟩

end ArrayEquations.Script
