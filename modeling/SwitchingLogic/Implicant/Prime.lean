import Std.Data.HashSet.Basic
import SwitchingLogic.Implicant.Basic

/-!
# Prime implicants

The implicants of a set of rows are found dimension by dimension, from single rows upwards.  Two
neighbouring cubes of one dimension unite to a cube of the next.  A cube without neighbour is
prime: freeing any of its positions would cover a row outside the set.

Each cube of a dimension is produced once: it is united across the last of its free positions,
from the half whose bit is zero there.
-/

namespace SwitchingLogic.Implicant

def hasNeighbour (cubes : Std.HashSet Implicant) (a : Implicant) (position : Nat) : Bool :=
  a.isFixed position && cubes.contains (a.opposite position)

def isMaximal (cubes : Std.HashSet Implicant) (a : Implicant) : Bool :=
  !(List.range a.width).any (hasNeighbour cubes a)

/-- The positions behind the last free one, from the last position on. -/
def fixedTail (a : Implicant) : List Nat :=
  (List.range a.width).reverse.takeWhile a.isFixed

/-- The cubes of the next dimension that have this one as the half with bit zero at the last free
position. -/
def unions (cubes : Std.HashSet Implicant) (a : Implicant) : List Implicant :=
  (a.fixedTail.filter fun position => !a.bit position && hasNeighbour cubes a position).map
    a.expand

/-- The prime ones among the cubes of one dimension and the unions of up to `dimensions` further
dimensions. -/
def primesFrom : Nat → List Implicant → List Implicant
  | 0, cubes => cubes
  | dimensions + 1, cubes =>
      let all := Std.HashSet.ofList cubes
      cubes.filter (isMaximal all) ++ primesFrom dimensions (cubes.flatMap (unions all))

/-- Fewer literals come first, and then the order of cubes decides. -/
def sizeOrder (a b : Implicant) : Ordering :=
  (compare a.literalCount b.literalCount).then (order a b)

def distinctRows (rows : List Nat) : List Nat :=
  (Std.HashSet.ofList rows).toList.mergeSort

def primes (rows : List Nat) (width : Nat) : List Implicant :=
  let cubes := (Std.HashSet.ofList (rows.map (minterm · width))).toList
  (primesFrom width cubes).mergeSort fun a b => (sizeOrder a b).isLE

end SwitchingLogic.Implicant
