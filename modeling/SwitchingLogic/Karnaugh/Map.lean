import SwitchingLogic.Implicant.Basic
import SwitchingLogic.Karnaugh.Rectangle

/-!
# Karnaugh maps

Cells of one value are gathered into groups.  A group is a rectangle whose cells form a cube; the
rectangles are gone through from large to small, and one is taken if all of its cells have the
value and none of them lies in a group taken before.  The groups of the ones give a sum of
products, and those of the zeros a product of sums.
-/

namespace SwitchingLogic.Karnaugh

/-- A group of cells and the term that is true on just these. -/
structure Group where
  places : List Place
  term : Term

namespace Group

def size (g : Group) : Nat := g.places.length

def product (g : Group) : Expr := g.term.toProduct

def clause (g : Group) : Expr := g.term.negateAll.toSum

/-- The order of display: larger groups first, then by their terms. -/
def order (a b : Group) : Ordering :=
  (compare b.size a.size).then (Term.displayOrder a.term b.term)

end Group

namespace Grid

/-- The term of a set of cells that form a cube: the smallest cube around them has no other
cells. -/
def cube? (g : Grid) (places : List Place) : Option Term :=
  let hull := Implicant.hull (places.map g.minterm) g.vars.length
  if places.length = 1 <<< (g.vars.length - hull.literalCount) then
    some (hull.toTerm g.vars)
  else none

def isFree (g : Grid) (target : Bool) (groups : List Group) (place : Place) : Bool :=
  g.value place == target && !groups.any fun group => group.places.contains place

/-- Take a rectangle as a further group if its cells allow it. -/
def addGroup (g : Grid) (target : Bool) (groups : List Group) (places : List Place) :
    List Group :=
  if places.all (g.isFree target groups) then
    match g.cube? places with
    | some term => groups ++ [⟨places, term⟩]
    | none => groups
  else groups

def groups (g : Grid) (target : Bool) : List Group :=
  (rectangles g.height g.width).foldl (g.addGroup target) []

end Grid

/-- A cell as it is recorded, with the numbers of the groups that hold it. -/
structure Cell where
  value : Bool
  minterm : Nat
  inputs : Assignment
  groupIds : List Nat
  deriving DecidableEq, Repr

namespace Grid

def cellsWith (g : Grid) (ids : Place → List Nat) : List (List Cell) :=
  g.places.map fun row => row.map fun place =>
    ⟨g.value place, g.minterm place, (g.state place).assignment g.vars, ids place⟩

end Grid

/-- Put the number of a group at the end of the numbers of one cell. -/
def mark (id : Nat) (cells : List (List Cell)) (place : Place) : List (List Cell) :=
  cells.modify place.1 fun row => row.modify place.2 fun cell =>
    { cell with groupIds := cell.groupIds ++ [id] }

/-- Number the groups from the first to the last, and mark the cells of each with its number. -/
def numberFrom (id : Nat) (cells : List (List Cell)) :
    List Group → List (Nat × Group) × List (List Cell)
  | [] => ([], cells)
  | group :: rest =>
      let (numbered, marked) := numberFrom (id + 1) (group.places.foldl (mark id) cells) rest
      ((id, group) :: numbered, marked)

/-- A grid with its groups of ones, in the order of display, and the two simplified forms. -/
structure Map where
  grid : Grid
  groups : List Group
  sumOfProducts : Expr
  productOfSums? : Option Expr

namespace Map

def build {α : Type} [LogicFunction α] (f : α) (vs : List Variable) (includePos : Bool) :
    Except Error Map := do
  let _ ← dimensions vs.length
  let grid := Grid.ofFunction f vs
  let groups := (grid.groups true).mergeSort fun a b => (Group.order a b).isLE
  let productOfSums? :=
    if includePos then some (Expr.conj ((grid.groups false).map Group.clause)) else none
  pure ⟨grid, groups, Expr.disj (groups.map Group.product), productOfSums?⟩

/-- The groups with their numbers, and the cells that they mark. -/
def numbered (m : Map) : List (Nat × Group) × List (List Cell) :=
  numberFrom 0 (m.grid.cellsWith fun _ => []) m.groups

def groupIds (m : Map) (place : Place) : List Nat :=
  (m.groups.zipIdx.filter fun (group, _) => group.places.contains place).map (·.2)

def countCells (m : Map) (value : Bool) : Nat :=
  m.grid.places.flatten.countP fun place => m.grid.value place == value

def largestGroup (m : Map) : Nat := (m.groups.map Group.size).foldl max 0

def literalCount (m : Map) : Nat :=
  m.groups.foldl (fun n group => n + group.term.literalCount) 0

end Map

end SwitchingLogic.Karnaugh
