import SwitchingLogic.Expr.Basic

/-!
# Printed expressions

Three notations.  The canonical one, `AB' + (C + D)'`, writes products without a sign and
negations after their operand; the programming one, `A & !B | !(C | D)`, has a sign for each
operation; the list notation, `(+ A (· B C'))`, shows every node of the tree.  The first two leave
out the parentheses that binding strength makes needless.
-/

namespace SwitchingLogic

structure Style where
  andSign : List Char
  orSign : List Char
  notSign : List Char
  notAfter : Bool

namespace Style

def canonical : Style := ⟨[], " + ".toList, "'".toList, true⟩

def programming : Style := ⟨" & ".toList, " | ".toList, ['!'], false⟩

def sign (style : Style) : Connective → List Char
  | .and => style.andSign
  | .or => style.orSign

/-- A negated operand, which is already grouped if it needs to be. -/
def negated (style : Style) (operand : List Char) : List Char :=
  if style.notAfter then operand ++ style.notSign else style.notSign ++ operand

end Style

namespace Expr

def grouped (needed : Bool) (s : List Char) : List Char :=
  if needed then '(' :: s ++ [')'] else s

/-- A tree that stays one symbol when negated: a leaf or another negation. -/
def isAtomic : Expr → Bool
  | .binary .. => false
  | _ => true

def digit (b : Bool) : Char := if b then '1' else '0'

/-- The text of a tree that stands directly below the connective `parent`, if any. -/
def render (style : Style) (parent : Option Connective) : Expr → List Char
  | .var v => [v.letter]
  | .const b => [digit b]
  | .not e => style.negated (grouped (!e.isAtomic) (e.render style none))
  | .binary op l r =>
      grouped (op.priority < (parent.map Connective.priority).getD 0)
        (l.render style (some op) ++ style.sign op ++ r.render style (some op))

def chars (e : Expr) : List Char := e.render .canonical none

def text (e : Expr) : String := String.ofList e.chars

def textLength (e : Expr) : Nat := e.chars.length

def programmingText (e : Expr) : String := String.ofList (e.render .programming none)

/-- The list notation, which shows the exact tree; literals are written `A` and `A'`. -/
def listChars : Expr → List Char
  | .var v => [v.letter]
  | .const b => [digit b]
  | .not (.var v) => v.letter :: "'".toList
  | .not e => "(' ".toList ++ e.listChars ++ [')']
  | .binary op l r =>
      ['(', op.sign, ' '] ++ l.listChars ++ [' '] ++ r.listChars ++ [')']

def listText (e : Expr) : String := String.ofList e.listChars

end Expr

end SwitchingLogic
