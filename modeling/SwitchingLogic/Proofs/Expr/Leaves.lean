import SwitchingLogic.Proofs.Expr.Width

/-!
# Leaves

The leaves of a tree, from left to right, and the number of its negations.  They determine the other
counts: a connective joins two trees into one, so that there is one less of them than there are
leaves.  Joining a list of operands keeps their leaves in order and adds no negation.
-/

namespace SwitchingLogic.Expr

def leaves : Expr → List Char
  | .var v => [v.letter]
  | .const b => [digit b]
  | .not e => e.leaves
  | .binary _ l r => l.leaves ++ r.leaves

def negations : Expr → Nat
  | .var _ | .const _ => 0
  | .not e => e.negations + 1
  | .binary _ l r => l.negations + r.negations

theorem length_leaves_pos (e : Expr) : 0 < e.leaves.length := by
  induction e with
  | var v => exact Nat.one_pos
  | const b => exact Nat.one_pos
  | not e ih => exact ih
  | binary op l r ihl _ =>
      rw [leaves, List.length_append]
      exact Nat.add_pos_left ihl _

theorem operatorCount_add_one (e : Expr) :
    e.operatorCount + 1 = e.leaves.length + e.negations := by
  induction e with
  | var v => rfl
  | const b => rfl
  | not e ih =>
      rw [operatorCount, ih]
      rfl
  | binary op l r ihl ihr =>
      simp only [operatorCount, leaves, List.length_append, negations]
      omega

/-- The nodes that are not operators are the leaves. -/
theorem complexity_eq (e : Expr) : e.complexity = e.operatorCount + e.leaves.length := by
  induction e with
  | var v => rfl
  | const b => rfl
  | not e ih => rw [complexity, ih, operatorCount, leaves, Nat.add_right_comm]
  | binary op l r ihl ihr =>
      simp only [complexity, operatorCount, leaves, List.length_append]
      omega

theorem leaves_join (op : Connective) {es : List Expr} (some' : es ≠ []) :
    (join op es).leaves = es.flatMap leaves := by
  refine join_induction op (motive := fun es tree => tree.leaves = es.flatMap leaves)
    (fun e => ?_) (fun front back _ _ ihFront ihBack => ?_) some'
  · rw [List.flatMap_singleton]
  · rw [leaves, ihFront, ihBack, List.flatMap_append]

theorem addsUp_negations (op : Connective) : AddsUp op negations := fun _ _ => rfl

end SwitchingLogic.Expr
