import SwitchingLogic.Karnaugh.Grid

/-!
# Rectangles on a torus

The rectangles whose sides are powers of two, wrapped around the borders of the grid, from the
largest size down to single cells.
-/

namespace SwitchingLogic.Karnaugh

def powersDownFrom (n : Nat) : List Nat :=
  if n = 0 then [] else (List.range (n.log2 + 1)).reverse.map (1 <<< ·)

/-- The places, in increasing order, of an arc on a circle of `n` places. -/
def arc (n start length : Nat) : List Nat :=
  (List.range n).filter fun i => (i + n - start) % n < length

/-- The heights and widths of the rectangles of a size that fit into the grid. -/
def shapes (rows columns size : Nat) : List (Nat × Nat) :=
  (powersDownFrom rows).filterMap fun height =>
    let width := size / height
    if height * width = size ∧ width ≤ columns then some (height, width) else none

def rectangle (rows columns top left height width : Nat) : List Place :=
  (arc rows top height).flatMap fun row =>
    (arc columns left width).map fun column => (row, column)

/-- The rectangles of one shape, by the row and then the column of their first corner. -/
def rectanglesOf (rows columns : Nat) (shape : Nat × Nat) : List (List Place) :=
  (List.range rows).flatMap fun top =>
    (List.range columns).map fun left => rectangle rows columns top left shape.1 shape.2

/-- All rectangles, larger ones first, and of one size the higher ones first. -/
def rectangles (rows columns : Nat) : List (List Place) :=
  ((powersDownFrom (rows * columns)).flatMap (shapes rows columns)).flatMap
    (rectanglesOf rows columns)

end SwitchingLogic.Karnaugh
