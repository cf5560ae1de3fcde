/-!
# Connectives

The two binary connectives, AND and OR, and what sets them apart: their neutral and absorbing
constants and their binding strength.
-/

namespace SwitchingLogic

inductive Connective where
  | and
  | or
  deriving DecidableEq, Hashable, Repr

namespace Connective

/-- The connective obtained by exchanging truth and falsity. -/
def dual : Connective → Connective
  | .and => .or
  | .or => .and

/-- The neutral constant: `A·1 = A` and `A+0 = A`. -/
def identity : Connective → Bool
  | .and => true
  | .or => false

/-- The absorbing constant: `A·0 = 0` and `A+1 = 1`. -/
def annihilator (op : Connective) : Bool := !op.identity

def eval : Connective → Bool → Bool → Bool
  | .and, a, b => a && b
  | .or, a, b => a || b

/-- Binding strength: AND binds more tightly than OR. -/
def priority : Connective → Nat
  | .and => 2
  | .or => 1

def sign : Connective → Char
  | .and => '·'
  | .or => '+'

end Connective

end SwitchingLogic
