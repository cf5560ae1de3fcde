import SwitchingLogic.Implicant.Basic
import SwitchingLogic.Text.Blank

/-!
# Written implicants

A cube is written with one character for each position: the bit of a fixed position, or `-` for a
free one.
-/

namespace SwitchingLogic.Implicant

def positionChar (a : Implicant) (position : Nat) : Char :=
  if a.isFixed position then if a.bit position then '1' else '0' else '-'

def chars (a : Implicant) : List Char :=
  (List.range a.width).map a.positionChar

def text (a : Implicant) : String := String.ofList a.chars

/-- Read the characters of the last positions; the masks hold one bit for each. -/
def readMasks? : List Char → Option (BitVec 32 × BitVec 32)
  | [] => some (0, 0)
  | c :: rest => do
      let (value, care) ← readMasks? rest
      let bit := BitVec.twoPow 32 rest.length
      if c = '-' then some (value, care)
      else if c = '0' then some (value, care ||| bit)
      else if c = '1' then some (value ||| bit, care ||| bit)
      else none

def read (s : String) : Except Error Implicant :=
  let cs := Text.dropBlanks s.toList
  if cs.length > maxWidth then .error (.tooComplex .implicantWidth cs.length maxWidth)
  else
    match readMasks? cs with
    | some (value, care) => .ok ⟨value, care, cs.length⟩
    | none => .error (.invalidName s)

end SwitchingLogic.Implicant
