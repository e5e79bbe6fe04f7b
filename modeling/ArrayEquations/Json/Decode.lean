import ArrayEquations.Json.Read

/-!
# ArrayEquations — documents as data

Decoders from the tree of a document. A decoder goes through the document in the
order of its text, so the first fault in the text decides the error, whether it is an
item of the wrong kind or the place where the text stops being a document.

## Main definitions

* `DecodeError` — why a document is not the data expected.
* `Numeral.inDocument?` — the number that a numeral stands for in a document.
* `Json.asNat`, `Json.asFloat`, `Json.asString`, … — decoders of single items.
* `Json.decodeFields` — a decoder of objects, field after field.
-/

namespace ArrayEquations

/-- Why a document is not the data expected. -/
inductive DecodeError where
  | missingField (name : String)
  | unknownField (name : String)
  | duplicateField (name : String)
  | unknownVariant (name : String)
  | invalidType
  | invalidValue
  /-- The text is no document. -/
  | malformed
  deriving DecidableEq, Repr

/-- A name between backquotes; a name with a backquote inside is cut there. -/
def backquoted (name : String) : String :=
  "`" ++ String.ofList (name.toList.takeWhile (· ≠ '`')) ++ "`"

/-- The text of a decoding error. -/
def DecodeError.message : DecodeError → String
  | .missingField name => "missing field " ++ backquoted name
  | .unknownField name => "unknown field " ++ backquoted name
  | .duplicateField name => "duplicate field " ++ backquoted name
  | .unknownVariant name => "unknown variant " ++ backquoted name
  | .invalidType => "invalid type"
  | .invalidValue => "invalid value"
  | .malformed => "syntax error"

/-! ## Numbers -/

/-- The number that a numeral stands for: whole numbers of up to 64 bits are exact, all others
are binary64. -/
inductive DocumentNumber where
  | natural (n : Nat)
  /-- The negative of a positive number. -/
  | negative (n : Nat)
  | real (x : Float)
  deriving DecidableEq

/-- Extends a 64-bit number by digits as long as it does not overflow; the digits left over
are returned. -/
def extendDigits (n : Nat) : List Char → Nat × List Char
  | [] => (n, [])
  | c :: rest =>
    let next := 10 * n + digitValue c
    if next < wordBound then extendDigits next rest else (n, c :: rest)

/-- The number `x * 10 ^ exponent`, each power of ten rounded before it is applied; none if it
is too large. -/
def scaleByTen : Nat → Float → Int → Option Float
  | 0, x, _ => some x
  | fuel + 1, x, exponent =>
    if exponent.natAbs ≤ 308 then
      let power := Float.ofScientific 1 false exponent.natAbs
      if 0 ≤ exponent then
        let y := x * power
        if y.isInf then none else some y
      else some (x / power)
    else if x == 0 then some x
    else if 0 ≤ exponent then none
    else scaleByTen fuel (x / Float.ofScientific 1 false 308) (exponent + 308)

/-- The number that a numeral stands for in a document; none if it is beyond the range of
numbers. Digits beyond 64 bits are dropped before rounding. -/
def Numeral.inDocument? (n : Numeral) : Option DocumentNumber := do
  let signed (x : Float) : DocumentNumber := .real (if n.negative then -x else x)
  let (significand, excess) := extendDigits 0 n.whole
  if excess.isEmpty && n.fraction.isEmpty && n.exponent.isNone then
    if n.negative then
      if 0 < significand && 2 * significand ≤ wordBound then return .negative significand
      else return .real (-(Float.ofNat significand))
    else return .natural significand
  else
    let (significand, unused) := extendDigits significand n.fraction
    let shift : Int := (excess.length : Int) - ((n.fraction.length - unused.length : Nat) : Int)
    let x := Float.ofNat significand
    match n.exponent with
    | none => return signed (← scaleByTen 8 x shift)
    | some (negative, digits) =>
      let e := digitsValue digits
      if Nat.pow 2 31 ≤ e then
        if significand ≠ 0 && !negative then none else return signed 0
      else return signed (← scaleByTen 8 x (if negative then shift - e else shift + e))

namespace Json

/-! ## Single items -/

/-- The error of an item of another kind than expected. A text or numeral is judged before its
kind is. -/
def mismatch : Json → DecodeError
  | .broken => .malformed
  | .string none => .malformed
  | .number n => if n.inDocument?.isSome then .invalidType else .malformed
  | _ => .invalidType

/-- A text. -/
def asString : Json → Except DecodeError String
  | .string (some s) => .ok s
  | j => .error j.mismatch

/-- A truth value. -/
def asBool : Json → Except DecodeError Bool
  | .bool b => .ok b
  | j => .error j.mismatch

/-- A natural number below a bound. -/
def asNatBelow (bound : Nat) (j : Json) : Except DecodeError Nat :=
  match j with
  | .number n =>
    match n.inDocument? with
    | none => .error .malformed
    | some (.natural n) => if n < bound then .ok n else .error .invalidValue
    | some (.negative _) => .error .invalidValue
    | some (.real _) => .error .invalidType
  | j => .error j.mismatch

/-- A natural number of 64 bits. -/
def asNat (j : Json) : Except DecodeError Nat := j.asNatBelow wordBound

/-- A binary64 number; whole numbers are rounded to one. -/
def asFloat (j : Json) : Except DecodeError Float :=
  match j with
  | .number n =>
    match n.inDocument? with
    | none => .error .malformed
    | some (.natural n) => .ok (Float.ofNat n)
    | some (.negative n) => .ok (-(Float.ofNat n))
    | some (.real x) => .ok x
  | j => .error j.mismatch

/-- An item that may be null. -/
def asOption {α : Type} (decode : Json → Except DecodeError α) (j : Json) :
    Except DecodeError (Option α) :=
  match j with
  | .null => .ok none
  | j => (decode j).map some

/-- A list of items. -/
def asList {α : Type} (decode : Json → Except DecodeError α) (j : Json) :
    Except DecodeError (List α) :=
  match j with
  | .array items closed => do
    let decoded ← items.mapM decode
    if closed then return decoded else throw .malformed
  | j => .error j.mismatch

/-- A list of natural numbers. -/
def asNats (j : Json) : Except DecodeError (List Nat) := j.asList asNat

/-! ## Objects -/

/-- An object, its fields taken one after the other. -/
def decodeFields {σ : Type} (step : σ → String → Json → Except DecodeError σ) (start : σ)
    (j : Json) : Except DecodeError σ :=
  match j with
  | .object fields closed => do
    let decoded ← fields.foldlM (fun state (key, value) =>
      match key with
      | some key => step state key value
      | none => throw .malformed) start
    if closed then return decoded else throw .malformed
  | j => .error j.mismatch

/-- Decodes a field that may come once. -/
def once {α : Type} (name : String) (previous : Option α)
    (decode : Except DecodeError α) : Except DecodeError (Option α) :=
  if previous.isSome then .error (.duplicateField name) else decode.map some

/-- A field that has to be there. -/
def required {α : Type} (name : String) (found : Option α) : Except DecodeError α :=
  match found with
  | some a => .ok a
  | none => .error (.missingField name)

mutual

/-- Whether the item was read to its end. -/
def isWhole : Json → Bool
  | .broken => false
  | .array items closed => areWhole items && closed
  | .object fields closed => fieldsAreWhole fields && closed
  | _ => true

/-- Whether all items were read to their ends. -/
def areWhole : List Json → Bool
  | [] => true
  | item :: rest => item.isWhole && areWhole rest

/-- Whether all fields were read to their ends. -/
def fieldsAreWhole : List (Option String × Json) → Bool
  | [] => true
  | (_, value) :: rest => value.isWhole && fieldsAreWhole rest

end

mutual

/-- Whether every text and number in the item has a value, and lists and objects are nested at
most `depth` deep. -/
def isSound (depth : Nat) : Json → Bool
  | .broken => false
  | .string content => content.isSome
  | .number n => n.inDocument?.isSome
  | .array items closed => depth != 0 && areSound (depth - 1) items && closed
  | .object fields closed => depth != 0 && fieldsAreSound (depth - 1) fields && closed
  | _ => true

/-- Whether all items are sound. -/
def areSound (depth : Nat) : List Json → Bool
  | [] => true
  | item :: rest => item.isSound depth && areSound depth rest

/-- Whether all keys and values are sound. -/
def fieldsAreSound (depth : Nat) : List (Option String × Json) → Bool
  | [] => true
  | (key, value) :: rest => key.isSome && value.isSound depth && fieldsAreSound depth rest

end

/-- Passes over an item that is not needed. -/
def ignore (j : Json) : Except DecodeError Unit :=
  if j.isWhole then .ok () else .error .malformed

end Json

/-- Decodes the document of a text; nothing may follow its value. -/
def decodeText {α : Type} (decode : Json → Except DecodeError α) (text : String) :
    Except DecodeError α := do
  let document := readDocument text
  let decoded ← decode document.root
  if document.ends then return decoded else throw .malformed

end ArrayEquations
