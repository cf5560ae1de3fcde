import SwitchingLogic.GrayCode
import SwitchingLogic.TruthTable

/-!
# The grid of a Karnaugh map

The rows of a truth table over two to six variables are laid out on a torus.  The first half of the
variables selects the row of the grid and the second half its column, both in the order of the
reflected Gray code, so that neighbouring cells differ in one variable.
-/

namespace SwitchingLogic.Karnaugh

/-- A cell, given by its row and its column. -/
abbrev Place := Nat × Nat

/-- The numbers of variables that select the row and the column. -/
def axisBits (n : Nat) : Nat × Nat := (n / 2, n - n / 2)

def dimensions (n : Nat) : Except Error (Nat × Nat) :=
  if n < 2 ∨ 6 < n then .error (.unsupportedSize n)
  else .ok (1 <<< (axisBits n).1, 1 <<< (axisBits n).2)

/-- The number that a bit string spells, the first bit being the highest. -/
def bitsValue (bits : List Bool) : Nat :=
  bits.foldl (fun value bit => 2 * value + bit.toNat) 0

/-- A grid: the variables, the labels of its axes, and the values of the function by rows of the
truth table. -/
structure Grid where
  vars : List Variable
  rowLabels : List (List Bool)
  columnLabels : List (List Bool)
  outputs : List Bool

namespace Grid

def ofFunction {α : Type} [LogicFunction α] (f : α) (vs : List Variable) : Grid :=
  let (rowBits, columnBits) := axisBits vs.length
  ⟨vs, GrayCode.reflected rowBits, GrayCode.reflected columnBits,
    (TruthTable.tabulate f vs).outputs⟩

def height (g : Grid) : Nat := g.rowLabels.length

def width (g : Grid) : Nat := g.columnLabels.length

/-- The row of the truth table that stands at a place. -/
def minterm (g : Grid) (place : Place) : Nat :=
  bitsValue (g.rowLabels.getD place.1 [] ++ g.columnLabels.getD place.2 [])

def value (g : Grid) (place : Place) : Bool := g.outputs.getD (g.minterm place) false

def state (g : Grid) (place : Place) : State := State.ofIndex (g.minterm place) g.vars

def rowPlaces (g : Grid) (row : Nat) : List Place :=
  (List.range g.width).map fun column => (row, column)

def places (g : Grid) : List (List Place) :=
  (List.range g.height).map g.rowPlaces

end Grid

end SwitchingLogic.Karnaugh
