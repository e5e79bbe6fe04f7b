import ArrayEquations.Decimal.Numeral

/-!
# ArrayEquations — documents

A document in the JSON notation, as far as it can be read. Reading goes on to the
first place that no document has; what follows is left out and the place is marked.
A reader of the tree that goes through it in the order of the text thus meets the
mark exactly when it has used everything before.

Two faults do not end the reading, because they only matter to a reader that needs
the item: a text whose escapes are not characters, and a numeral beyond the range of
numbers.

## Main definitions

* `Json` — the tree, with `Json.broken` as the mark.
* `Json.compact`, `Json.pretty` — a tree as text.
-/

namespace ArrayEquations

/-- A document, as far as it can be read. -/
inductive Json where
  | null
  | bool (b : Bool)
  | number (n : Numeral)
  /-- A text; none if an escape in it is half a surrogate pair. -/
  | string (content : Option String)
  /-- The items, and whether the closing bracket follows them. -/
  | array (items : List Json) (closed : Bool)
  /-- The fields, and whether the closing brace follows them. -/
  | object (fields : List (Option String × Json)) (closed : Bool)
  /-- The place where reading ended. -/
  | broken

namespace Json

/-- A text. -/
def ofString (s : String) : Json := .string (some s)

/-- A natural number. -/
def ofNat (n : Nat) : Json := .number (Numeral.ofNat n)

/-- A list of items. -/
def ofList (items : List Json) : Json := .array items true

/-- A list of natural numbers. -/
def ofNats (ns : List Nat) : Json := ofList (ns.map ofNat)

/-- An object with the fields in the order given. -/
def ofFields (fields : List (String × Json)) : Json :=
  .object (fields.map fun (key, value) => (some key, value)) true

/-! ## Writing -/

/-- The last four hexadecimal digits of a number. -/
def hexDigits (n : Nat) : List Char :=
  [n / 4096, n / 256, n / 16, n].map fun d => Nat.digitChar (d % 16)

/-- A character inside a text: quotes, backslashes and controls are escaped. -/
def escapedChar (c : Char) : List Char :=
  if c = '"' then ['\\', '"']
  else if c = '\\' then ['\\', '\\']
  else if c = '\x08' then ['\\', 'b']
  else if c = '\x0c' then ['\\', 'f']
  else if c = '\n' then ['\\', 'n']
  else if c = '\r' then ['\\', 'r']
  else if c = '\t' then ['\\', 't']
  else if c.toNat < 32 then '\\' :: 'u' :: hexDigits c.toNat
  else [c]

/-- A text between quotes. -/
def quotedText (s : String) : String :=
  String.ofList ('"' :: s.toList.flatMap escapedChar ++ ['"'])

/-- A key as it is written. -/
def keyText (key : Option String) : String := quotedText (key.getD "")

mutual

/-- The document without blanks. -/
def compact : Json → String
  | .null => "null"
  | .bool b => if b then "true" else "false"
  | .number n => n.text
  | .string content => keyText content
  | .array items _ => "[" ++ compactItems items ++ "]"
  | .object fields _ => "\x7b" ++ compactFields fields ++ "\x7d"
  | .broken => ""

/-- Items separated by commas. -/
def compactItems : List Json → String
  | [] => ""
  | [item] => item.compact
  | item :: rest => item.compact ++ "," ++ compactItems rest

/-- Fields separated by commas. -/
def compactFields : List (Option String × Json) → String
  | [] => ""
  | [(key, value)] => keyText key ++ ":" ++ value.compact
  | (key, value) :: rest => keyText key ++ ":" ++ value.compact ++ "," ++ compactFields rest

end

/-- A new line at a depth of nesting, two blanks for each level. -/
def newLine (depth : Nat) : String := "\n" ++ String.ofList (List.replicate (2 * depth) ' ')

mutual

/-- The document with a line for each item and field; empty lists and objects stay closed. -/
def pretty (depth : Nat) : Json → String
  | .array [] _ => "[]"
  | .array (item :: rest) _ =>
    "[" ++ prettyItems (depth + 1) (item :: rest) ++ newLine depth ++ "]"
  | .object [] _ => "\x7b\x7d"
  | .object (field :: rest) _ =>
    "\x7b" ++ prettyFields (depth + 1) (field :: rest) ++ newLine depth ++ "\x7d"
  | .null => "null"
  | .bool b => if b then "true" else "false"
  | .number n => n.text
  | .string content => keyText content
  | .broken => ""

/-- Items on lines of their own. -/
def prettyItems (depth : Nat) : List Json → String
  | [] => ""
  | [item] => newLine depth ++ item.pretty depth
  | item :: rest => newLine depth ++ item.pretty depth ++ "," ++ prettyItems depth rest

/-- Fields on lines of their own. -/
def prettyFields (depth : Nat) : List (Option String × Json) → String
  | [] => ""
  | [(key, value)] => newLine depth ++ keyText key ++ ": " ++ value.pretty depth
  | (key, value) :: rest =>
    newLine depth ++ keyText key ++ ": " ++ value.pretty depth ++ "," ++ prettyFields depth rest

end

end Json

end ArrayEquations
