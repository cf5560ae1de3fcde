import SwitchingLogic.Implicant.Prime

/-!
# Covers by expansion and reduction

The cover starts with the single rows.  Expansion frees the positions of each cube as long as it
stays within the rows, and drops cubes inside others; reduction drops cubes that the others cover
together.  The two alternate until the number of cubes no longer falls.
-/

namespace SwitchingLogic.Implicant

def within (onSet : Std.HashSet Nat) (a : Implicant) : Bool :=
  a.covered.all onSet.contains

def expandAt (onSet : Std.HashSet Nat) (a : Implicant) (position : Nat) : Implicant :=
  if a.isFixed position && (a.expand position).within onSet then a.expand position else a

/-- Free the positions from the first to the last, as far as possible. -/
def grow (onSet : Std.HashSet Nat) (a : Implicant) : Implicant :=
  (List.range a.width).foldl (expandAt onSet) a

/-- Add a cube unless it lies in another one; the cubes that lie in it go. -/
def addMaximal (cubes : List Implicant) (a : Implicant) : List Implicant :=
  if cubes.any (·.contains a) then cubes
  else cubes.filter (fun b => !a.contains b) ++ [a]

def expandAll (onSet : Std.HashSet Nat) (cubes : List Implicant) : List Implicant :=
  (cubes.map (grow onSet)).foldl addMaximal []

def coveredBy (a : Implicant) (cubes : List Implicant) : Bool :=
  a.covered.all fun row => cubes.any (·.covers row)

/-- Drop, from the first to the last, each cube that the other ones cover: those kept before it
and all behind it. -/
def reduceFrom (kept : List Implicant) : List Implicant → List Implicant
  | [] => kept
  | a :: rest =>
      if a.coveredBy (kept ++ rest) then reduceFrom kept rest else reduceFrom (kept ++ [a]) rest

def reduceAll (cubes : List Implicant) : List Implicant := reduceFrom [] cubes

/-- Expand and reduce until the number of cubes no longer falls. -/
def alternate (onSet : Std.HashSet Nat) (cubes : List Implicant) : List Implicant :=
  let next := reduceAll (expandAll onSet cubes)
  if next.length < cubes.length then alternate onSet next else next
termination_by cubes.length

def espresso (rows : List Nat) (width : Nat) : List Implicant :=
  alternate (Std.HashSet.ofList rows) ((distinctRows rows).map (minterm · width))

def minterms? (rows : List Nat) (width : Nat) : Option (List Implicant) :=
  (distinctRows rows).mapM (minterm? · width)

/-- The cover over any number of positions, if the single rows have cubes to start with. -/
def espresso? (rows : List Nat) (width : Nat) : Option (List Implicant) :=
  (minterms? rows width).map (alternate (Std.HashSet.ofList rows))

end SwitchingLogic.Implicant
