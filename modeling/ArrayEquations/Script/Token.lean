import ArrayEquations.Decimal
import ArrayEquations.Diagnostic

/-!
# ArrayEquations — tokens of scripts

A script is a text of keywords, marks, numbers, identifiers and line ends. Blanks and
comments only separate tokens.

## Main definitions

* `Keyword`, `Mark` — the fixed tokens with their spellings.
* `Token` — a token, and `Token.text` its form in messages.
* `Lexeme` — a token with its place.
-/

namespace ArrayEquations.Script

/-- The words that are no identifiers. -/
inductive Keyword where
  | function | bind | result | naming
  deriving DecidableEq, Repr

namespace Keyword

/-- The spelling of a keyword. -/
def text : Keyword → String
  | .function => "fn"
  | .bind => "let"
  | .result => "return"
  | .naming => "as"

/-- All keywords. -/
def all : List Keyword := [.function, .bind, .result, .naming]

/-- The keyword of a spelling. -/
def ofText? (s : String) : Option Keyword := all.find? (·.text == s)

end Keyword

/-- Operators and punctuation. -/
inductive Mark where
  | plus | minus | star | slash | at | caret
  | lt | le | gt | ge | eq | ne
  | leftParen | rightParen | leftBrace | rightBrace | leftBracket | rightBracket
  | comma | colon | equals
  deriving DecidableEq, Repr

namespace Mark

/-- The spelling of a mark. -/
def text : Mark → String
  | .plus => "+"
  | .minus => "-"
  | .star => "*"
  | .slash => "/"
  | .at => "@"
  | .caret => "^"
  | .lt => "<"
  | .le => "<="
  | .gt => ">"
  | .ge => ">="
  | .eq => "=="
  | .ne => "!="
  | .leftParen => "("
  | .rightParen => ")"
  | .leftBrace => "\x7b"
  | .rightBrace => "\x7d"
  | .leftBracket => "["
  | .rightBracket => "]"
  | .comma => ","
  | .colon => ":"
  | .equals => "="

/-- All marks. -/
def all : List Mark :=
  [ .plus, .minus, .star, .slash, .at, .caret, .lt, .le, .gt, .ge, .eq, .ne,
    .leftParen, .rightParen, .leftBrace, .rightBrace, .leftBracket, .rightBracket,
    .comma, .colon, .equals ]

/-- The mark of a spelling. -/
def ofText? (s : String) : Option Mark := all.find? (·.text == s)

end Mark

/-- A token. -/
inductive Token where
  | keyword (k : Keyword)
  | mark (m : Mark)
  /-- A whole number, below `2 ^ 64`. -/
  | int (n : Nat)
  /-- A number with a fraction or an exponent. -/
  | decimal (x : Float)
  | identifier (name : String)
  /-- One or more line ends in a row. -/
  | newline
  deriving DecidableEq

/-- A token as messages show it. -/
def Token.text : Token → String
  | .keyword k => k.text
  | .mark m => m.text
  | .int n => toString n
  | .decimal x => plainText x
  | .identifier _ => "<ident>"
  | .newline => "<newline>"

/-- A token with its place in the source. -/
structure Lexeme where
  token : Token
  span : Span
  deriving DecidableEq

end ArrayEquations.Script
