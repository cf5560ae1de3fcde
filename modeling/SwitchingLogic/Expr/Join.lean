import SwitchingLogic.Expr.Basic

/-!
# Joining operands

A list of operands becomes one tree whose height grows with the logarithm of the number of
operands: the first half of the list goes to the left, and the left half is the larger one when
the number is odd.
-/

namespace SwitchingLogic.Expr

/-- The balanced tree over a list of operands; the neutral constant of `op` when there are
none. -/
def join (op : Connective) (operands : List Expr) : Expr :=
  match operands with
  | [] => .const op.identity
  | [e] => e
  | e :: f :: rest =>
      let all := e :: f :: rest
      let half := (all.length + 1) / 2
      .binary op (join op (all.take half)) (join op (all.drop half))
termination_by operands.length
decreasing_by
  all_goals simp only [List.length_take, List.length_drop, List.length_cons]; omega

/-- The height that joining `n` operands adds to the highest of them: the logarithm of `n` to
the base two, rounded up. -/
def joinDepth (n : Nat) : Nat :=
  if n ≤ 1 then 0 else Nat.log2 (n - 1) + 1

abbrev conj (operands : List Expr) : Expr := join .and operands

abbrev disj (operands : List Expr) : Expr := join .or operands

end SwitchingLogic.Expr
