import SwitchingLogic.Law.Chain

/-!
# Passes of the laws

One pass goes through the expression from the leaves to the root.  Operands that have changed are
merged into the chain around them before the laws are applied to it.  Passes are repeated until
nothing changes.
-/

namespace SwitchingLogic.Law

/-- The operands that a part of a chain contributes. -/
structure Contribution where
  operands : List Expr
  changed : Bool
  steps : List Step

def Contribution.append (a b : Contribution) : Contribution :=
  ⟨a.operands ++ b.operands, a.changed || b.changed, a.steps ++ b.steps⟩

/-- The contribution of a single operand of a chain of `op`.  A new operand may itself be a chain
of `op`, which is merged. -/
def Outcome.contribution (op : Connective) (e : Expr) (outcome : Outcome) : Contribution :=
  match outcome.result? with
  | none => ⟨[e], false, outcome.steps⟩
  | some new => ⟨new.operands op, true, outcome.steps⟩

/-- What becomes of the negation of `e`, given what becomes of `e`. -/
def negation (e : Expr) (outcome : Outcome) : Outcome :=
  match outcome.result?.getD e with
  | .const b =>
      ⟨some (.const !b), outcome.steps ++ [⟨.constantNegation, .not (.const b), .const !b⟩]⟩
  | .not inner => ⟨some inner, outcome.steps ++ [⟨.doubleNegation, .not (.not inner), inner⟩]⟩
  | _ => ⟨outcome.result?.map .not, outcome.steps⟩

/-- What becomes of a chain, given the contributions of its parts. -/
def Contribution.close (op : Connective) (c : Contribution) : Outcome :=
  let outcome := applyToChain op c.operands
  match outcome.result? with
  | some new => ⟨some new, c.steps ++ outcome.steps⟩
  | none => ⟨if c.changed then some (Expr.join op c.operands) else none, c.steps⟩

mutual

def pass : Expr → Outcome
  | .var _ => .unchanged
  | .const _ => .unchanged
  | .not e => negation e (pass e)
  | .binary op l r => ((contribute l op).append (contribute r op)).close op

def contribute : Expr → Connective → Contribution
  | .var v, op => Outcome.unchanged.contribution op (.var v)
  | .const b, op => Outcome.unchanged.contribution op (.const b)
  | .not e, op => (negation e (pass e)).contribution op (.not e)
  | .binary op' l r, op =>
      let parts := (contribute l op').append (contribute r op')
      if op' = op then parts else (parts.close op').contribution op (.binary op' l r)

end

/-- Repeat passes until nothing changes, at most `limit` times. -/
def applyUpTo : Nat → Expr → Expr × List Step
  | 0, e => (e, [])
  | limit + 1, e =>
      let outcome := pass e
      match outcome.result? with
      | none => (e, outcome.steps)
      | some new =>
          let (final, steps) := applyUpTo limit new
          (final, outcome.steps ++ steps)

def maxPasses : Nat := 100

def apply (e : Expr) : Expr × List Step :=
  applyUpTo maxPasses e

end SwitchingLogic.Law
