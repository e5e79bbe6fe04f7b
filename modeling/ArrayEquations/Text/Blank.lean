import ArrayEquations.Text.Ranges

/-!
# ArrayEquations — blanks

The characters with the Unicode property `White_Space`.
-/

namespace ArrayEquations

/-- The ranges of the property `White_Space`. -/
def blankRanges : CodePointRanges :=
  [ (0x9, 0xD), (0x20, 0x20), (0x85, 0x85), (0xA0, 0xA0), (0x1680, 0x1680), (0x2000, 0x200A),
    (0x2028, 0x2029), (0x202F, 0x202F), (0x205F, 0x205F), (0x3000, 0x3000) ]

/-- Whether a character is a blank. -/
def isBlank (c : Char) : Bool := blankRanges.contains c

/-- Whether a text consists of blanks only. -/
def isBlankText (s : String) : Bool := s.toList.all isBlank

end ArrayEquations
