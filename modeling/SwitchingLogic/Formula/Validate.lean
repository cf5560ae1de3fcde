import SwitchingLogic.Error
import SwitchingLogic.Formula.Normalize

/-!
# Faults of a formula text

A normalized text is a formula when its characters are allowed, its parentheses match, it neither
begins nor ends with an operator that lacks an operand, and no two neighbouring characters exclude
each other.  The first fault in this order is reported.
-/

namespace SwitchingLogic.Formula

def isConnectiveSign (c : Char) : Bool :=
  c == '+' || c == '·'

def isFormulaChar (c : Char) : Bool :=
  isLeafChar c || isConnectiveSign c || c == '\x27' || c == '!' || c == '(' || c == ')'

def characterFault? (s : List Char) : Option FormulaFault :=
  s.zipIdx.findSome? fun (c, position) =>
    if isFormulaChar c then none else some (.invalidCharacter c position)

/-- The first parenthesis that closes nothing, or the number of those never closed. The text
starts at `position`, below `opened` open parentheses. -/
def parenthesisFault? (position opened : Nat) : List Char → Option FormulaFault
  | [] => if opened = 0 then none else some (.unclosed opened)
  | '(' :: rest => parenthesisFault? (position + 1) (opened + 1) rest
  | ')' :: rest =>
      if opened = 0 then some (.unexpectedClosing position)
      else parenthesisFault? (position + 1) (opened - 1) rest
  | _ :: rest => parenthesisFault? (position + 1) opened rest

def leadingFault? (first : Char) : Option FormulaFault :=
  if isConnectiveSign first then some (.leadingOperator first)
  else if first = '\x27' then some (.misplacedComplement 0)
  else none

def trailingFault? (last : Char) : Option FormulaFault :=
  if isConnectiveSign last || last == '!' then some (.trailingOperator last) else none

def pairFault? (a b : Char) (position : Nat) : Option FormulaFault :=
  if a == '(' && b == ')' then some (.emptyParentheses position)
  else if (isConnectiveSign a || a == '!') && isConnectiveSign b then
    some (.adjacentOperators a b position)
  else if a == '(' && isConnectiveSign b then some (.operatorAtBoundary a b position)
  else if (isConnectiveSign a || a == '!') && b == ')' then
    some (.operatorAtBoundary a b position)
  else if (isConnectiveSign a || a == '(' || a == '!') && b == '\x27' then
    some (.misplacedComplement (position + 1))
  else none

/-- The first pair of neighbours, counted from `position`, that exclude each other. -/
def neighbourFault? (position : Nat) : List Char → Option FormulaFault
  | a :: b :: rest => pairFault? a b position <|> neighbourFault? (position + 1) (b :: rest)
  | _ => none

/-- The fault that is reported for a normalized text; `none` when the text is a formula. -/
def fault? (s : List Char) : Option FormulaFault :=
  match s with
  | [] => some .empty
  | first :: rest =>
      characterFault? s
        <|> parenthesisFault? 0 0 s
        <|> leadingFault? first
        <|> trailingFault? (rest.getLastD first)
        <|> neighbourFault? 0 s

/-- The greatest number of parentheses that are open at one point of the text, which starts below
`opened` open parentheses. -/
def nesting (opened : Nat) : List Char → Nat
  | [] => opened
  | '(' :: rest => nesting (opened + 1) rest
  | ')' :: rest => max opened (nesting (opened - 1) rest)
  | _ :: rest => nesting opened rest

end SwitchingLogic.Formula
