/-!
# ArrayEquations — shapes

A shape lists the extents of an array's axes, outermost first; a scalar has the
empty shape. Axes are counted from zero.

The number of entries is a natural number here. Where it is multiplied up in words it is
`Shape.count?` in `Proofs.CountedShapes`, which is the same number for countable shapes.

## Main definitions

* `Shape` — the list of extents.
* `Shape.extent` — the extent of one axis.
* `Shape.size` — the number of entries.
* `Shape.nonSingleton` — the extents other than one, in order.
* `naturalsText` — how shapes and axis lists are written.
-/

namespace ArrayEquations

/-- The extents of an array's axes, empty for a scalar. -/
abbrev Shape := List Nat

/-- A list of naturals between square brackets: `[2, 3]`. -/
def naturalsText (ns : List Nat) : String :=
  "[" ++ String.intercalate ", " (ns.map toString) ++ "]"

namespace Shape

/-- The number of axes. -/
def rank (s : Shape) : Nat := s.length

/-- The extent of an axis; an axis that the shape does not have counts as a single layer. -/
def extent (s : Shape) (axis : Nat) : Nat := s.getD axis 1

/-- The number of entries: the product of the extents. -/
def size (s : Shape) : Nat := s.foldl (· * ·) 1

/-- A scalar has no axis. -/
def isScalar (s : Shape) : Bool := s.isEmpty

/-- The extents other than one, in axis order. -/
def nonSingleton (s : Shape) : List Nat := s.filter (· != 1)

/-- The axes in order. -/
def axes (s : Shape) : List Nat := List.range s.rank

/-- A shape as it is written in messages: `[2, 3]`. -/
def text (s : Shape) : String := naturalsText s

end Shape

/-- The axes below `rank` in neither list, ascending. -/
def freeAxes (rank : Nat) (contract batch : List Nat) : List Nat :=
  (List.range rank).filter fun a => !contract.contains a && !batch.contains a

end ArrayEquations
