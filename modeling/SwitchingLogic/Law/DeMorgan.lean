import SwitchingLogic.Law.Basic

/-!
# Pushing negations inwards

A negated connective becomes the dual connective on negated operands, and two negations cancel,
until only variables and constants are negated.
-/

namespace SwitchingLogic.Law

/-- The outcome for a connective whose operands have been treated. -/
def combine (op : Connective) (l r : Expr) (outcomeL outcomeR : Outcome) : Outcome :=
  let steps := outcomeL.steps ++ outcomeR.steps
  match outcomeL.result?, outcomeR.result? with
  | none, none => ⟨none, steps⟩
  | l', r' => ⟨some (.binary op (l'.getD l) (r'.getD r)), steps⟩

mutual

def push : Expr → Outcome
  | .var _ => .unchanged
  | .const _ => .unchanged
  | .not e => pushNegated e
  | .binary op l r => combine op l r (push l) (push r)

def pushNegated : Expr → Outcome
  | .var _ => .unchanged
  | .const _ => .unchanged
  | .not e =>
      let outcome := push e
      ⟨some (outcome.result?.getD e), ⟨.doubleNegation, .not (.not e), e⟩ :: outcome.steps⟩
  | .binary op l r =>
      let pushed := Expr.binary op.dual (.not l) (.not r)
      let outcome := combine op.dual (.not l) (.not r) (pushNegated l) (pushNegated r)
      ⟨some (outcome.result?.getD pushed),
        ⟨.deMorgan, .not (.binary op l r), pushed⟩ :: outcome.steps⟩

end

def pushNegations (e : Expr) : Expr × List Step :=
  let outcome := push e
  (outcome.result?.getD e, outcome.steps)

end SwitchingLogic.Law
