import ArrayEquations.Text.Printable

/-!
# ArrayEquations — quoted text

Text between double quotes as messages show it: quotes and backslashes are escaped,
common controls have a letter, and other characters that cannot be printed are given
by their code point in hexadecimal.
-/

namespace ArrayEquations

/-- The lower-case hexadecimal digits of a number. -/
def hexText (n : Nat) : String := String.ofList (Nat.toDigits 16 n)

/-- A character as it stands in quoted text. -/
def quotedChar (c : Char) : String :=
  if c = '\x00' then "\\0"
  else if c = '\t' then "\\t"
  else if c = '\r' then "\\r"
  else if c = '\n' then "\\n"
  else if c = '"' || c = '\\' then "\\" ++ c.toString
  else if isPrintable c then c.toString
  else "\\u\x7b" ++ hexText c.toNat ++ "\x7d"

/-- A text between double quotes. -/
def quoted (s : String) : String :=
  "\"" ++ String.join (s.toList.map quotedChar) ++ "\""

end ArrayEquations
