import SwitchingLogic.Term

/-!
# Values under partial knowledge

Where some variables have no value yet, an expression is true, false, or undecided.  It is decided
as soon as the known values settle it, operand by operand.
-/

namespace SwitchingLogic

/-- The value of a connective on operands of which some are undecided: one absorbing operand
decides it. -/
def Connective.eval? (op : Connective) (a b : Option Bool) : Option Bool :=
  if a = some op.annihilator ∨ b = some op.annihilator then some op.annihilator
  else if a.isSome && b.isSome then some op.identity
  else none

def Expr.eval? (lookup : Variable → Option Bool) : Expr → Option Bool
  | .var v => lookup v
  | .const b => some b
  | .not e => (e.eval? lookup).map Bool.not
  | .binary op l r => op.eval? (l.eval? lookup) (r.eval? lookup)

/-- The known values that a term stands for: those that it fixes. -/
def Term.lookup (t : Term) (v : Variable) : Option Bool :=
  if t.positive.contains v then some true
  else if t.negative.contains v then some false
  else none

end SwitchingLogic
