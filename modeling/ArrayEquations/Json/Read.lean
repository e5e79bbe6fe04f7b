import ArrayEquations.Decimal.Scan
import ArrayEquations.Json

/-!
# ArrayEquations — reading documents

From text to the tree of a document. Every text has a tree; one that is no document
has a broken place in it, or something after it.

## Main definitions

* `readNumeral`, `readString` — the two kinds of token with an inner structure.
* `readValue` — a value and what follows it, or nothing if reading ended inside.
* `Document` — a value and whether only blanks follow it.
-/

namespace ArrayEquations

/-- The rest of a text behind the blanks of the notation. -/
def skipBlanks (cs : List Char) : List Char :=
  cs.dropWhile fun c => c = ' ' || c = '\n' || c = '\t' || c = '\r'

/-! ## Numerals -/

/-- A numeral and what follows it. Only a lone zero may start with a zero. -/
def readNumeral (cs : List Char) : Option (Numeral × List Char) := do
  let (negative, cs) :=
    match cs with
    | '-' :: rest => (true, rest)
    | cs => (false, cs)
  let whole := cs.takeWhile Char.isDigit
  if whole.isEmpty || (whole.length ≠ 1 && whole.head? == some '0') then none
  let (fraction, cs) ← readFraction (cs.dropWhile Char.isDigit)
  let (exponent, cs) ← readExponent cs
  return (⟨negative, whole, fraction, exponent⟩, cs)

/-! ## Texts -/

/-- A piece of a text: a character, or the sixteen-bit unit that an escape gives. -/
inductive TextPiece where
  | char (c : Char)
  | unit (n : Nat)
  deriving DecidableEq, Repr

/-- The value of a hexadecimal digit. -/
def hexValue? (c : Char) : Option Nat :=
  if c.isDigit then some (c.toNat - '0'.toNat)
  else if 'a' ≤ c && c ≤ 'f' then some (c.toNat - 'a'.toNat + 10)
  else if 'A' ≤ c && c ≤ 'F' then some (c.toNat - 'A'.toNat + 10)
  else none

/-- The unit of four hexadecimal digits. -/
def unitValue? (a b c d : Char) : Option Nat := do
  return (((← hexValue? a) * 16 + (← hexValue? b)) * 16 + (← hexValue? c)) * 16 +
    (← hexValue? d)

/-- The character of a one-letter escape. -/
def escapeValue? (c : Char) : Option Char :=
  match c with
  | '"' | '\\' | '/' => some c
  | 'b' => some '\x08'
  | 'f' => some '\x0c'
  | 'n' => some '\n'
  | 'r' => some '\r'
  | 't' => some '\t'
  | _ => none

/-- The pieces of a text up to its closing quote, and what follows it. -/
def readPieces : List Char → Option (List TextPiece × List Char)
  | '"' :: rest => some ([], rest)
  | '\\' :: 'u' :: a :: b :: c :: d :: rest => do
    let n ← unitValue? a b c d
    let (pieces, rest) ← readPieces rest
    return (.unit n :: pieces, rest)
  | '\\' :: c :: rest => do
    let c ← escapeValue? c
    let (pieces, rest) ← readPieces rest
    return (.char c :: pieces, rest)
  | c :: rest =>
    if c.toNat < 32 then none
    else do
      let (pieces, rest) ← readPieces rest
      return (.char c :: pieces, rest)
  | [] => none

/-- The character of a pair of units, if they are a surrogate pair in order. -/
def pairValue? (high low : Nat) : Option Char :=
  if 0xD800 ≤ high && high < 0xDC00 && 0xDC00 ≤ low && low < 0xE000 then
    some (Char.ofNat (0x10000 + (high - 0xD800) * 0x400 + (low - 0xDC00)))
  else none

/-- Whether a unit is half a surrogate pair. -/
def isSurrogate (n : Nat) : Bool := 0xD800 ≤ n && n < 0xE000

/-- The characters of the pieces; none if a surrogate stands alone. -/
def piecesText? : List TextPiece → Option (List Char)
  | [] => some []
  | .char c :: rest => (piecesText? rest).map (c :: ·)
  | [.unit n] => if isSurrogate n then none else some [Char.ofNat n]
  | .unit n :: .char c :: rest =>
    if isSurrogate n then none
    else (piecesText? rest).map (Char.ofNat n :: c :: ·)
  | .unit n :: .unit m :: rest =>
    if isSurrogate n then
      match pairValue? n m with
      | some c => (piecesText? rest).map (c :: ·)
      | none => none
    else (piecesText? (.unit m :: rest)).map (Char.ofNat n :: ·)

/-- A text behind its opening quote, and what follows it. -/
def readString (cs : List Char) : Option (Option String × List Char) := do
  let (pieces, rest) ← readPieces cs
  return ((piecesText? pieces).map String.ofList, rest)

/-! ## Values -/

/-- Where the next item starts: at once, or behind a comma that the closing mark does not
follow. -/
def nextItem? (first : Bool) (close : Char) (cs : List Char) : Option (List Char) :=
  if first then some cs
  else
    match cs with
    | ',' :: rest =>
      let rest := skipBlanks rest
      if rest.head? == some close then none else some rest
    | _ => none

mutual

/-- A value and what follows it, or nothing if reading ended inside the value. -/
def readValue : Nat → List Char → Json × Option (List Char)
  | 0, _ => (.broken, none)
  | fuel + 1, cs =>
    match skipBlanks cs with
    | '"' :: rest =>
      match readString rest with
      | some (content, rest) => (.string content, some rest)
      | none => (.broken, none)
    | '[' :: rest =>
      let (items, rest) := readItems fuel true rest
      (.array items rest.isSome, rest)
    | '{' :: rest =>
      let (fields, rest) := readFields fuel true rest
      (.object fields rest.isSome, rest)
    | 'n' :: 'u' :: 'l' :: 'l' :: rest => (.null, some rest)
    | 't' :: 'r' :: 'u' :: 'e' :: rest => (.bool true, some rest)
    | 'f' :: 'a' :: 'l' :: 's' :: 'e' :: rest => (.bool false, some rest)
    | cs =>
      match readNumeral cs with
      | some (n, rest) => (.number n, some rest)
      | none => (.broken, none)

/-- Items up to the closing bracket, and what follows it. -/
def readItems : Nat → Bool → List Char → List Json × Option (List Char)
  | 0, _, _ => ([], none)
  | fuel + 1, first, cs =>
    match skipBlanks cs with
    | ']' :: rest => ([], some rest)
    | cs =>
      match nextItem? first ']' cs with
      | none => ([], none)
      | some cs =>
        match readValue fuel cs with
        | (item, none) => ([item], none)
        | (item, some rest) =>
          let (items, rest) := readItems fuel false rest
          (item :: items, rest)

/-- Fields up to the closing brace, and what follows it. A key without a colon has a broken
value. -/
def readFields : Nat → Bool → List Char → List (Option String × Json) × Option (List Char)
  | 0, _, _ => ([], none)
  | fuel + 1, first, cs =>
    match skipBlanks cs with
    | '}' :: rest => ([], some rest)
    | cs =>
      match nextItem? first '}' cs with
      | some ('"' :: rest) =>
        match readString rest with
        | none => ([], none)
        | some (key, rest) =>
          match skipBlanks rest with
          | ':' :: rest =>
            match readValue fuel rest with
            | (value, none) => ([(key, value)], none)
            | (value, some rest) =>
              let (fields, rest) := readFields fuel false rest
              ((key, value) :: fields, rest)
          | _ => ([(key, .broken)], none)
      | _ => ([], none)

end

/-- A value with what follows it. -/
structure Document where
  root : Json
  /-- Whether only blanks follow the value. -/
  ends : Bool

/-- The document of a text. -/
def readDocument (text : String) : Document :=
  let cs := text.toList
  match readValue (cs.length + 1) cs with
  | (root, some rest) => ⟨root, (skipBlanks rest).isEmpty⟩
  | (root, none) => ⟨root, false⟩

end ArrayEquations
