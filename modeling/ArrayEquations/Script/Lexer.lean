import ArrayEquations.Decimal.Scan
import ArrayEquations.Script.Token
import ArrayEquations.Text.Quoted

/-!
# ArrayEquations — from text to tokens

The text is cut into pieces from left to right, each as long as it can be. A piece is a
run of blanks or a comment, a token, or something unknown: a character that starts no
token, or a whole number beyond 64 bits. Places are counted in bytes.

## Main definitions

* `Piece` — the kinds of piece, and `pieceAt` the piece at the start of a text.
* `LexError` — an unknown piece with its place.
* `lex` — the tokens and the unknown pieces of a text, each in order.
-/

namespace ArrayEquations.Script

/-- The kinds of piece. -/
inductive Piece where
  /-- Blanks or a comment. -/
  | blank
  | token (t : Token)
  | unknown
  deriving DecidableEq

/-- Whether a character is a blank within a line. -/
def isLineBlank (c : Char) : Bool := c = ' ' || c = '\t' || c = '\r'

/-- Whether an identifier may start with a character: a letter of the ASCII range or a low
line. -/
def isNameStart (c : Char) : Bool := c.isAlpha || c = '_'

/-- Whether a character may go on an identifier. -/
def isNamePart (c : Char) : Bool := isNameStart c || c.isDigit

/-- The token of a word. -/
def wordToken (word : String) : Token :=
  match Keyword.ofText? word with
  | some k => .keyword k
  | none => .identifier word

/-- The number at the start of a text, and what follows it. A point or an exponent without
digits does not belong to it. -/
def scanNumber (cs : List Char) : Piece × List Char :=
  let whole := cs.takeWhile Char.isDigit
  let rest := cs.dropWhile Char.isDigit
  let (fraction, rest) := (readFraction rest).getD ([], rest)
  let (exponent, rest) := (readExponent rest).getD (none, rest)
  if fraction.isEmpty && exponent.isNone then
    let n := digitsValue whole
    (if n < wordBound then .token (.int n) else .unknown, rest)
  else (.token (.decimal (Numeral.toFloat ⟨false, whole, fraction, exponent⟩)), rest)

/-- The mark at the start of a text and the number of characters behind its first; a mark of
two characters comes before one of one. -/
def scanMark (c : Char) (rest : List Char) : Piece × Nat :=
  match Mark.ofText? (String.ofList (c :: rest.take 1)) with
  | some m => (.token (.mark m), min 1 rest.length)
  | none =>
    match Mark.ofText? c.toString with
    | some m => (.token (.mark m), 0)
    | none => (.unknown, 0)

/-- The piece that starts with a character, and the number of characters that it takes of the
rest. -/
def pieceAt (c : Char) (rest : List Char) : Piece × Nat :=
  if isLineBlank c then (.blank, (rest.takeWhile isLineBlank).length)
  else if c = '#' then (.blank, (rest.takeWhile (· ≠ '\n')).length)
  else if c = '\n' then (.token .newline, (rest.takeWhile (· = '\n')).length)
  else if isNameStart c then
    let more := rest.takeWhile isNamePart
    (.token (wordToken (String.ofList (c :: more))), more.length)
  else if c.isDigit then
    let (piece, after) := scanNumber (c :: rest)
    (piece, rest.length - after.length)
  else scanMark c rest

/-- An unknown piece. -/
structure LexError where
  text : String
  span : Span
  deriving DecidableEq, Repr

/-- The text of a lexical error. -/
def LexError.message (e : LexError) : String := "unexpected input: " ++ quoted e.text

/-- The tokens and the unknown pieces of a text. -/
structure Lexed where
  tokens : List Lexeme
  errors : List LexError
  deriving DecidableEq

/-- The tokens and the unknown pieces with one piece before them. -/
def Lexed.cons (piece : Piece) (text : String) (span : Span) (later : Lexed) : Lexed :=
  match piece with
  | .blank => later
  | .token t => { later with tokens := ⟨t, span⟩ :: later.tokens }
  | .unknown => { later with errors := ⟨text, span⟩ :: later.errors }

/-- The tokens and the unknown pieces of a text that starts at a place. -/
def lexFrom (start : Nat) : List Char → Lexed
  | [] => ⟨[], []⟩
  | c :: rest =>
    let (piece, more) := pieceAt c rest
    let text := String.ofList (c :: rest.take more)
    let stop := start + text.utf8ByteSize
    (lexFrom stop (rest.drop more)).cons piece text ⟨start, stop⟩
termination_by cs => cs.length
decreasing_by
  simp only [List.length_drop, List.length_cons]
  omega

/-- The tokens and the unknown pieces of a text. -/
def lex (source : String) : Lexed := lexFrom 0 source.toList

end ArrayEquations.Script
