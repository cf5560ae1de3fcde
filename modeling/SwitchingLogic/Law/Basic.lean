import SwitchingLogic.Expr.Basic

/-!
# Laws and steps

The laws of Boolean algebra that change expressions.  A step names its law and shows the
expression before and after.
-/

namespace SwitchingLogic

inductive Law where
  /-- A neutral constant can be left out of a chain. -/
  | identity
  /-- An absorbing constant decides a chain. -/
  | null
  /-- An operand counts once in a chain. -/
  | idempotent
  /-- An operand and its negation decide a chain. -/
  | complement
  /-- Two negations cancel. -/
  | doubleNegation
  /-- An operand that includes another one can be left out. -/
  | absorption
  /-- The negation of a constant is the other constant. -/
  | constantNegation
  /-- The negation of a connective is the dual connective on the negations. -/
  | deMorgan
  deriving DecidableEq, Repr

namespace Law

def title : Law → String
  | .identity => "Identity Law"
  | .null => "Null Law"
  | .idempotent => "Idempotent Law"
  | .complement => "Complement Law"
  | .doubleNegation => "Double Negation Law"
  | .absorption => "Absorption Law"
  | .constantNegation => "Constant Negation"
  | .deMorgan => "De Morgan's Law"

structure Step where
  law : Law
  before : Expr
  after : Expr
  deriving DecidableEq

/-- What a pass makes of an expression: a new one, or none if it stays as it is, together with
the steps taken. -/
structure Outcome where
  result? : Option Expr
  steps : List Step

def Outcome.unchanged : Outcome := ⟨none, []⟩

end Law

end SwitchingLogic
