import SwitchingLogic.Error

/-!
# The reflected Gray code

All bit strings of one length, arranged so that neighbours, and the last and the first string,
differ in exactly one bit.
-/

namespace SwitchingLogic.GrayCode

/-- The reflected code: a zero in front of each shorter string, and then a one in front of each,
backwards. -/
def reflected : Nat → List (List Bool)
  | 0 => [[]]
  | n + 1 =>
      let shorter := reflected n
      shorter.map (false :: ·) ++ shorter.reverse.map (true :: ·)

def maxBits : Nat := 8

def list (bits : Nat) : Except Error (List (List Bool)) :=
  if bits > maxBits then throw (.tooComplex .grayCodeWidth bits maxBits) else pure (reflected bits)

end SwitchingLogic.GrayCode
