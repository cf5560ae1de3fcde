import SwitchingLogic.Term

/-!
# Implicants

An implicant is a cube of rows over a number of positions: some positions are fixed to a bit, the
others are free.  It is kept as two masks, the fixed positions (`care`) and the bits of the fixed
positions (`value`).  As in row indices, the first position is the most significant bit.
-/

namespace SwitchingLogic

structure Implicant where
  value : BitVec 32
  care : BitVec 32
  width : Nat
  deriving DecidableEq, Hashable

namespace Implicant

def maxWidth : Nat := 32

def fullMask (width : Nat) : BitVec 32 := BitVec.ofNat 32 ((1 <<< width) - 1)

def positionMask (position width : Nat) : BitVec 32 :=
  BitVec.twoPow 32 (width - 1 - position)

/-- The mask of all positions, made by a shift of the word.  The distance of the shift has to be a
number, so there is no mask of more positions than the word has bits. -/
def fullMask? (width : Nat) : Option (BitVec 32) :=
  if width = 0 then some 0
  else if width ≤ maxWidth then some (BitVec.allOnes 32 >>> (maxWidth - width))
  else none

def minterm (row width : Nat) : Implicant :=
  ⟨BitVec.ofNat 32 row &&& fullMask width, fullMask width, width⟩

/-- The cube of a single row over any number of positions, if there is a mask of all of them. -/
def minterm? (row width : Nat) : Option Implicant :=
  (fullMask? width).map fun care => ⟨BitVec.ofNat 32 row &&& care, care, width⟩

def free (width : Nat) : Implicant := ⟨0, 0, width⟩

def countOnes (mask : BitVec 32) : Nat :=
  (List.range 32).countP mask.getLsbD

def literalCount (a : Implicant) : Nat := countOnes a.care

def ones (a : Implicant) : Nat := countOnes a.value

def covers (a : Implicant) (row : Nat) : Bool :=
  BitVec.ofNat 32 row &&& a.care == a.value

/-- Every row of the second cube belongs to the first. -/
def contains (a b : Implicant) : Bool :=
  b.care &&& a.care == a.care && b.value &&& a.care == a.value

/-- The union of two cubes that agree except for the bit of one fixed position. -/
def merge? (a b : Implicant) : Option Implicant :=
  let difference := a.value ^^^ b.value
  if a.care = b.care ∧ a.width = b.width ∧ countOnes difference = 1 then
    some ⟨a.value &&& ~~~difference, a.care &&& ~~~difference, a.width⟩
  else none

def isFixed (a : Implicant) (position : Nat) : Bool :=
  a.care.getLsbD (a.width - 1 - position)

def bit (a : Implicant) (position : Nat) : Bool :=
  a.value.getLsbD (a.width - 1 - position)

def expand (a : Implicant) (position : Nat) : Implicant :=
  let mask := positionMask position a.width
  ⟨a.value &&& ~~~mask, a.care &&& ~~~mask, a.width⟩

/-- The neighbouring cube across a fixed position. -/
def opposite (a : Implicant) (position : Nat) : Implicant :=
  { a with value := a.value ^^^ positionMask position a.width }

/-- The smallest cube that holds the listed rows: a position is fixed where they all agree. -/
def hull (rows : List Nat) (width : Nat) : Implicant :=
  let words := rows.map (BitVec.ofNat 32 ·)
  let common := words.foldl (· &&& ·) (fullMask width)
  let present := words.foldl (· ||| ·) 0
  ⟨common, fullMask width &&& ~~~(common ^^^ present), width⟩

/-- The rows below `2 ^ n` that agree with the cube in the lowest `n` bits, in order. -/
def coveredBelow (a : Implicant) : Nat → List Nat
  | 0 => [0]
  | n + 1 =>
      let low := a.coveredBelow n
      let high := low.map ((1 <<< n) + ·)
      if a.care.getLsbD n then if a.value.getLsbD n then high else low
      else low ++ high

def covered (a : Implicant) : List Nat := a.coveredBelow a.width

/-- The order of cubes: by value, then by fixed positions, then by width. -/
def order (a b : Implicant) : Ordering :=
  ((compare a.value.toNat b.value.toNat).then (compare a.care.toNat b.care.toNat)).then
    (compare a.width b.width)

def toTerm (a : Implicant) (vs : List Variable) : Term :=
  (vs.zipIdx.take a.width).foldl
    (fun t (v, position) => if a.isFixed position then t.set v (a.bit position) else t) .free

def toProduct (a : Implicant) (vs : List Variable) : Expr := (a.toTerm vs).toProduct

def toSum (a : Implicant) (vs : List Variable) : Expr := (a.toTerm vs).toSum

def sumOfProducts (as : List Implicant) (vs : List Variable) : Expr :=
  Expr.disj (as.map fun a => a.toProduct vs)

/-- Sort cubes for display, by the terms that they stand for: larger cubes first. -/
def sortForDisplay (as : List Implicant) (vs : List Variable) : List Implicant :=
  let keyed := as.map fun a => (a.literalCount, a.toTerm vs, a)
  (keyed.mergeSort fun (m, s, _) (n, t, _) =>
    ((compare m n).then (Term.displayOrder s t)).isLE).map fun (_, _, a) => a

end Implicant

end SwitchingLogic
