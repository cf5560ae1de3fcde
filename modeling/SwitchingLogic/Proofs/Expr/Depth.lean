import Mathlib.Data.Nat.Log
import SwitchingLogic.Proofs.Expr.Balance

/-!
# Heights of joined operands

Each time a list of operands is halved the tree over it gets one level, so that joining adds the
logarithm of the number of operands, rounded up, to the height of the highest one.  The operands
themselves are subtrees of the tree over them.
-/

namespace SwitchingLogic.Expr

/-- The left half of the operands, which is the larger one, gets one level less. -/
theorem joinDepth_half {n : Nat} (several : 2 ≤ n) :
    joinDepth n = joinDepth ((n + 1) / 2) + 1 := by
  have halved : (n + 1) / 2 - 1 = (n - 1) / 2 := by omega
  rw [joinDepth, if_neg (by omega), joinDepth, halved]
  split
  · have two : n = 2 := by omega
    rw [two]
    rfl
  · rw [Nat.log2_def, if_pos (by omega)]

theorem joinDepth_eq_clog (n : Nat) : joinDepth n = Nat.clog 2 n := by
  induction n using Nat.strongRecOn with
  | ind n ih =>
      by_cases several : 2 ≤ n
      · rw [joinDepth_half several, ih _ (by omega), Nat.clog_of_two_le Nat.one_lt_two several]
        rfl
      · have few : n ≤ 1 := by omega
        rw [joinDepth, if_pos few, Nat.clog_of_right_le_one few]

theorem joinDepth_mono {m n : Nat} (less : m ≤ n) : joinDepth m ≤ joinDepth n := by
  rw [joinDepth_eq_clog, joinDepth_eq_clog]
  exact Nat.clog_mono_right 2 less

theorem depth_join_le (op : Connective) {es : List Expr} (some' : es ≠ []) {deepest : Nat}
    (bound : ∀ e ∈ es, e.depth ≤ deepest) :
    (join op es).depth ≤ deepest + joinDepth es.length := by
  induction es using join.induct with
  | case1 => exact absurd rfl some'
  | case2 e =>
      rw [join]
      exact bound e (List.mem_singleton.mpr rfl)
  | case3 e f rest all half ihFront ihBack =>
      have several : 2 ≤ all.length := by simp [all]
      have front : (all.take half).length ≤ (all.length + 1) / 2 := List.length_take_le _ _
      have back : (all.drop half).length ≤ (all.length + 1) / 2 := by
        rw [List.length_drop]
        omega
      have left := ihFront (by simp [all, half])
        fun g member => bound g (List.mem_of_mem_take member)
      have right := ihBack (by simp [all, half]; omega)
        fun g member => bound g (List.mem_of_mem_drop member)
      have frontLevels := joinDepth_mono front
      have backLevels := joinDepth_mono back
      have levels := joinDepth_half several
      rw [join, depth]
      change max (join op (all.take half)).depth (join op (all.drop half)).depth + 1 ≤
        deepest + joinDepth all.length
      omega

theorem depth_repeat_not (n : Nat) (e : Expr) : (n.repeat .not e).depth = e.depth + n := by
  induction n with
  | zero => rfl
  | succ n ih =>
      rw [Nat.repeat, depth, ih]
      rfl

theorem balance_repeat_not (n : Nat) (e : Expr) :
    Expr.balance (n.repeat .not e) = n.repeat .not e.balance := by
  induction n with
  | zero => rfl
  | succ n ih =>
      rw [Nat.repeat, balance_not, ih]
      rfl

inductive IsSubtree (e : Expr) : Expr → Prop where
  | refl : IsSubtree e e
  | not {f : Expr} (inside : IsSubtree e f) : IsSubtree e (.not f)
  | left {op : Connective} {l r : Expr} (inside : IsSubtree e l) : IsSubtree e (.binary op l r)
  | right {op : Connective} {l r : Expr} (inside : IsSubtree e r) : IsSubtree e (.binary op l r)

theorem IsSubtree.trans {e f g : Expr} (inner : e.IsSubtree f) (outer : f.IsSubtree g) :
    e.IsSubtree g := by
  induction outer with
  | refl => exact inner
  | not _ ih => exact .not ih
  | left _ ih => exact .left ih
  | right _ ih => exact .right ih

theorem isSubtree_repeat_not (n : Nat) (e : Expr) : e.IsSubtree (n.repeat .not e) := by
  induction n with
  | zero => exact .refl
  | succ n ih => exact .not ih

theorem isSubtree_join (op : Connective) {es : List Expr} {e : Expr} (member : e ∈ es) :
    e.IsSubtree (join op es) := by
  refine join_induction op (motive := fun es tree => e ∈ es → e.IsSubtree tree)
    (fun f only => ?_) (fun front back _ _ ihFront ihBack inside => ?_)
    (List.ne_nil_of_mem member) member
  · rw [List.mem_singleton.mp only]
    exact .refl
  · rcases List.mem_append.mp inside with left | right
    · exact .left (ihFront left)
    · exact .right (ihBack right)

end SwitchingLogic.Expr
