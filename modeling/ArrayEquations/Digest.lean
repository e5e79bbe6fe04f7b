import ArrayEquations.Text.Quoted

/-!
# ArrayEquations — digests of texts

The SHA-256 digest of a text in its UTF-8 form. The bytes are followed by a one bit,
zeros and their number, which makes whole blocks of 64 bytes; every block then changes
eight words of state.

## Main definitions

* `paddedBytes` — the bytes in whole blocks.
* `schedule`, `compress` — what one block does to the state.
* `digestText` — the digest as 64 hexadecimal digits.
-/

namespace ArrayEquations.Digest

/-- The state between two blocks. -/
structure State where
  (a b c d e f g h : UInt32)
  deriving DecidableEq, Repr

/-- The words of sixteen rounds and more. -/
abbrev Words := Array UInt32

/-- The state before the first block: the fractional parts of the square roots of the first
eight primes. -/
def State.initial : State :=
  ⟨0x6a09e667, 0xbb67ae85, 0x3c6ef372, 0xa54ff53a, 0x510e527f, 0x9b05688c, 0x1f83d9ab, 0x5be0cd19⟩

/-- A constant for each round: the fractional parts of the cube roots of the first 64 primes. -/
def roundConstants : List UInt32 :=
  [ 0x428a2f98, 0x71374491, 0xb5c0fbcf, 0xe9b5dba5, 0x3956c25b, 0x59f111f1, 0x923f82a4, 0xab1c5ed5,
    0xd807aa98, 0x12835b01, 0x243185be, 0x550c7dc3, 0x72be5d74, 0x80deb1fe, 0x9bdc06a7, 0xc19bf174,
    0xe49b69c1, 0xefbe4786, 0x0fc19dc6, 0x240ca1cc, 0x2de92c6f, 0x4a7484aa, 0x5cb0a9dc, 0x76f988da,
    0x983e5152, 0xa831c66d, 0xb00327c8, 0xbf597fc7, 0xc6e00bf3, 0xd5a79147, 0x06ca6351, 0x14292967,
    0x27b70a85, 0x2e1b2138, 0x4d2c6dfc, 0x53380d13, 0x650a7354, 0x766a0abb, 0x81c2c92e, 0x92722c85,
    0xa2bfe8a1, 0xa81a664b, 0xc24b8b70, 0xc76c51a3, 0xd192e819, 0xd6990624, 0xf40e3585, 0x106aa070,
    0x19a4c116, 0x1e376c08, 0x2748774c, 0x34b0bcb5, 0x391c0cb3, 0x4ed8aa4a, 0x5b9cca4f, 0x682e6ff3,
    0x748f82ee, 0x78a5636f, 0x84c87814, 0x8cc70208, 0x90befffa, 0xa4506ceb, 0xbef9a3f7, 0xc67178f2 ]

/-- A word turned to the right. -/
def rotated (x n : UInt32) : UInt32 := (x >>> n) ||| (x <<< (32 - n))

/-! ## Blocks -/

/-- The bytes of a number, highest first. -/
def bytesOf (count n : Nat) : List UInt8 :=
  (List.range count).reverse.map fun k => UInt8.ofNat (n / Nat.pow 256 k)

/-- The bytes of a message in whole blocks. -/
def paddedBytes (message : List UInt8) : List UInt8 :=
  let zeros := (119 - message.length % 64) % 64
  message ++ 0x80 :: List.replicate zeros 0 ++ bytesOf 8 (8 * message.length)

/-- The words of a row of bytes, four bytes to a word, highest first. -/
def wordsOf : List UInt8 → List UInt32
  | a :: b :: c :: d :: rest =>
    ((a.toUInt32 <<< 24) ||| (b.toUInt32 <<< 16) ||| (c.toUInt32 <<< 8) ||| d.toUInt32) ::
      wordsOf rest
  | _ => []

/-- The word of a round that follows from the words before it. -/
def nextWord (w : Words) : UInt32 :=
  let x := w.getD (w.size - 15) 0
  let y := w.getD (w.size - 2) 0
  w.getD (w.size - 16) 0 + (rotated x 7 ^^^ rotated x 18 ^^^ (x >>> 3)) +
    w.getD (w.size - 7) 0 + (rotated y 17 ^^^ rotated y 19 ^^^ (y >>> 10))

/-- The words of all rounds of a block: its own sixteen and 48 that follow from them. -/
def schedule (block : List UInt32) : Words :=
  (List.range 48).foldl (fun w _ => w.push (nextWord w)) block.toArray

/-- One round. -/
def State.round (s : State) (word constant : UInt32) : State :=
  let choice := (s.e &&& s.f) ^^^ (~~~s.e &&& s.g)
  let majority := (s.a &&& s.b) ^^^ (s.a &&& s.c) ^^^ (s.b &&& s.c)
  let x := s.h + (rotated s.e 6 ^^^ rotated s.e 11 ^^^ rotated s.e 25) + choice + constant + word
  let y := (rotated s.a 2 ^^^ rotated s.a 13 ^^^ rotated s.a 22) + majority
  ⟨x + y, s.a, s.b, s.c, s.d + x, s.e, s.f, s.g⟩

/-- The state after a block. -/
def State.compress (s : State) (block : List UInt32) : State :=
  let t := ((schedule block).toList.zip roundConstants).foldl
    (fun t (word, constant) => t.round word constant) s
  ⟨s.a + t.a, s.b + t.b, s.c + t.c, s.d + t.d, s.e + t.e, s.f + t.f, s.g + t.g, s.h + t.h⟩

/-- The state after so many blocks. -/
def State.absorb (s : State) : Nat → List UInt32 → State
  | 0, _ => s
  | n + 1, words => (s.compress (words.take 16)).absorb n (words.drop 16)

/-! ## Texts -/

/-- The digest of a row of bytes. -/
def ofBytes (message : List UInt8) : State :=
  let words := wordsOf (paddedBytes message)
  State.initial.absorb (words.length / 16) words

/-- A word as eight hexadecimal digits. -/
def wordText (w : UInt32) : String :=
  let digits := (hexText w.toNat).toList
  String.ofList (List.replicate (8 - digits.length) '0' ++ digits)

/-- A digest as 64 hexadecimal digits. -/
def State.text (s : State) : String :=
  String.join ([s.a, s.b, s.c, s.d, s.e, s.f, s.g, s.h].map wordText)

/-- The digest of a text as 64 hexadecimal digits. -/
def digestText (s : String) : String := (ofBytes s.toUTF8.toList).text

end ArrayEquations.Digest
