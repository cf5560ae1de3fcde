import SwitchingLogic.Text.Blank
import SwitchingLogic.Text.WordChar

/-!
# Normalized formulas

A formula may be written with words, with the signs of programming languages or with those of
logic.  Normalizing leaves one spelling: `·`, `+` and `'` for the operations, no white space, and a
leading `!` only in front of groups and where no operand follows.
-/

namespace SwitchingLogic.Formula

/-- The sign of a word that names an operation; any other run stays as it is. -/
def wordSign (run : List Char) : List Char :=
  if run = "AND".toList then ['·']
  else if run = "OR".toList then ['+']
  else if run = "NOT".toList then ['!']
  else run

/-- Replace the words that name operations.  Only whole words count. -/
def replaceWords (s : List Char) : List Char :=
  (Text.runs s).flatMap wordSign

/-- Replace the other signs for the operations; a doubled `&` or `|` counts as one sign. -/
def replaceSigns : List Char → List Char
  | [] => []
  | '&' :: '&' :: rest => '·' :: replaceSigns rest
  | '|' :: '|' :: rest => '+' :: replaceSigns rest
  | c :: rest =>
      let sign :=
        if c = '&' ∨ c = '*' ∨ c = '∧' ∨ c = '⋅' then '·'
        else if c = '|' ∨ c = '∨' then '+'
        else if c = '\u0305' ∨ c = '’' ∨ c = '′' then '\x27'
        else c
      sign :: replaceSigns rest

def isLeafChar (c : Char) : Bool :=
  c.isAlpha || c == '0' || c == '1'

/-- Turn each `!` in front of a single character operand into a `'` behind it.  Going from right
to left settles a run of `!` from the innermost one outwards. -/
def complementLeaves : List Char → List Char
  | [] => []
  | c :: rest =>
      match c, complementLeaves rest with
      | '!', d :: tail => if isLeafChar d then d :: '\x27' :: tail else '!' :: d :: tail
      | _, tail => c :: tail

def normalize (s : List Char) : List Char :=
  complementLeaves (Text.dropBlanks (replaceSigns (replaceWords s)))

end SwitchingLogic.Formula
