import ArrayEquations.Text.Blank

/-!
# ArrayEquations — index symbols

An index symbol is a letter with a number of primes. Symbols come from an ordered
alphabet: first its letters, then the letters with one prime, and so on. A symbol is
not handed out while it is in scope. Scopes close in the reverse of the order in which
they opened, after which their symbols may be used again.

Primes are counted without a bound here. A search that counts them in eight bits, and goes on
without end once every symbol that it can count is in scope, is `IndexScope.search?` in
`Proofs.ScopedSymbols`; it ends with the same symbol as long as one is left.

## Main definitions

* `Index` — an index symbol.
* `IndexScope` — an alphabet and the symbols in scope.
* `IndexScope.fresh`, `IndexScope.mark`, `IndexScope.release` — opening and closing.
-/

namespace ArrayEquations

/-- An index symbol: a letter and its number of primes. -/
structure Index where
  letter : Char
  primes : Nat
  deriving DecidableEq, Repr, Inhabited

namespace Index

/-- An index symbol as it is written: `j''`. -/
def text (i : Index) : String :=
  String.ofList (i.letter :: List.replicate i.primes '\'')

/-- Index symbols in a row. -/
def rowText (is : List Index) : String := String.join (is.map text)

end Index

/-- The letters of index symbols where nothing else is asked for; `o` looks like a zero. -/
def defaultAlphabet : String := "ijklmnpqrstuvw"

/-- The letters of an alphabet: blanks and repetitions do not count, and an alphabet without
letters stands for the default one. -/
def alphabetLetters (alphabet : String) : List Char :=
  let letters := (alphabet.toList.filter (!isBlank ·)).eraseDups
  if letters.isEmpty then defaultAlphabet.toList else letters

/-- The index symbols in scope, oldest first, and the letters of new ones. -/
structure IndexScope where
  letters : List Char
  live : List Index
  deriving DecidableEq, Repr

namespace IndexScope

/-- A scope over an alphabet with no symbol in it. -/
def ofAlphabet (alphabet : String) : IndexScope := ⟨alphabetLetters alphabet, []⟩

/-- The symbols with fewer than `rounds` primes, in the order in which they are tried. -/
def candidates (letters : List Char) (rounds : Nat) : List Index :=
  (List.range rounds).flatMap fun primes => letters.map fun letter => ⟨letter, primes⟩

/-- The first symbol that is not in scope. With more rounds of letters than symbols in scope
there is always one. -/
def next (s : IndexScope) : Index :=
  ((candidates s.letters (s.live.length + 1)).find? (!s.live.contains ·)).getD default

/-- Brings the first symbol that is not in scope into scope. -/
def fresh (s : IndexScope) : Index × IndexScope :=
  let i := s.next
  (i, { s with live := s.live ++ [i] })

/-- Brings so many new symbols into scope. -/
def freshMany (s : IndexScope) : Nat → List Index × IndexScope
  | 0 => ([], s)
  | n + 1 =>
    let (i, s) := s.fresh
    let (is, s) := s.freshMany n
    (i :: is, s)

/-- The place to which a later release returns: the number of symbols in scope. -/
def mark (s : IndexScope) : Nat := s.live.length

/-- Closes every scope opened since the mark. -/
def release (s : IndexScope) (mark : Nat) : IndexScope := { s with live := s.live.take mark }

end IndexScope

end ArrayEquations
