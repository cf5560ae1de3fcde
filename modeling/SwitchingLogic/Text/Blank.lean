/-!
# Blank characters

The white space of a text, and the removal of it: everywhere, or at both ends only.
-/

namespace SwitchingLogic.Text

/-- A character of white space: the blanks of the typewriter, the line and paragraph separators
and the typographic spaces. -/
def isBlank (c : Char) : Bool :=
  let n := c.toNat
  (9 ≤ n && n ≤ 13) || n == 0x20 || n == 0x85 || n == 0xa0 || n == 0x1680 ||
    (0x2000 ≤ n && n ≤ 0x200a) || n == 0x2028 || n == 0x2029 || n == 0x202f ||
    n == 0x205f || n == 0x3000

def dropBlanks (s : List Char) : List Char :=
  s.filter fun c => !isBlank c

def trim (s : List Char) : List Char :=
  ((s.dropWhile isBlank).reverse.dropWhile isBlank).reverse

end SwitchingLogic.Text
