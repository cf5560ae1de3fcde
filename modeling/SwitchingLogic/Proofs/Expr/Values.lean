import SwitchingLogic.Expr.Join
import SwitchingLogic.Proofs.State.Rows

/-!
# Values of expressions

The value of an expression depends on its own variables only.  The value of a chain is decided by
one question, whether some operand has the absorbing value of the connective; asking it instead of
computing a conjunction or a disjunction treats both connectives alike.
-/

namespace SwitchingLogic

namespace Connective

@[simp]
theorem annihilator_dual (op : Connective) : op.dual.annihilator = !op.annihilator := by
  cases op <;> rfl

theorem identity_ne_annihilator (op : Connective) : op.identity ≠ op.annihilator := by
  cases op <;> decide

/-- One operand with the absorbing value decides the connective, and nothing else does. -/
theorem eval_eq_annihilator_iff (op : Connective) (a b : Bool) :
    op.eval a b = op.annihilator ↔ a = op.annihilator ∨ b = op.annihilator := by
  cases op <;> cases a <;> cases b <;> decide

/-- De Morgan's law on values. -/
theorem eval_dual_not (op : Connective) (a b : Bool) :
    op.dual.eval (!a) (!b) = !op.eval a b := by
  cases op <;> cases a <;> cases b <;> rfl

/-- Some operand has the absorbing value. -/
def Decided (op : Connective) (es : List Expr) (s : State) : Prop :=
  ∃ e ∈ es, e.eval s = op.annihilator

theorem not_decided_nil (op : Connective) (s : State) : ¬ op.Decided [] s := by
  rintro ⟨e, member, _⟩
  cases member

theorem decided_singleton (op : Connective) (e : Expr) (s : State) :
    op.Decided [e] s ↔ e.eval s = op.annihilator := by
  simp [Decided]

theorem decided_append (op : Connective) (es fs : List Expr) (s : State) :
    op.Decided (es ++ fs) s ↔ op.Decided es s ∨ op.Decided fs s := by
  simp only [Decided, List.mem_append, or_and_right, exists_or]

theorem decided_cons (op : Connective) (e : Expr) (rest : List Expr) (s : State) :
    op.Decided (e :: rest) s ↔ e.eval s = op.annihilator ∨ op.Decided rest s := by
  rw [← op.decided_singleton, ← op.decided_append, List.singleton_append]

/-- More operands keep a chain decided. -/
theorem Decided.mono {op : Connective} {es fs : List Expr} {s : State} (inside : es ⊆ fs)
    (decided : op.Decided es s) : op.Decided fs s := by
  obtain ⟨e, member, value⟩ := decided
  exact ⟨e, inside member, value⟩

/-- A Boolean is known once it is known whether it is the absorbing value. -/
theorem eq_of_eq_annihilator_iff (op : Connective) {a b : Bool}
    (same : a = op.annihilator ↔ b = op.annihilator) : a = b := by
  generalize op.annihilator = c at same
  cases a <;> cases b <;> cases c <;> simp_all

end Connective

namespace Expr

/-- The value of a tree depends on its variables only. -/
theorem eval_congr (e : Expr) {s t : State}
    (same : ∀ v, e.vars.contains v = true → s.isActive v = t.isActive v) :
    e.eval s = e.eval t := by
  induction e with
  | var v => exact same v (by rw [vars, VarSet.contains_singleton, decide_eq_true rfl])
  | const b => rfl
  | not e ih => rw [eval, eval, ih same]
  | binary op l r ihl ihr =>
      have left (v : Variable) (member : l.vars.contains v = true) :
          s.isActive v = t.isActive v :=
        same v (by rw [vars, VarSet.contains_union, member, Bool.true_or])
      have right (v : Variable) (member : r.vars.contains v = true) :
          s.isActive v = t.isActive v :=
        same v (by rw [vars, VarSet.contains_union, member, Bool.or_true])
      rw [eval, eval, ihl left, ihr right]

@[simp]
theorem eval_literal (v : Variable) (value : Bool) (s : State) :
    (literal v value).eval s = (s.isActive v == value) := by
  cases value <;> simp [literal, eval]

theorem eval_binary_iff (op : Connective) (l r : Expr) (s : State) :
    (binary op l r).eval s = op.annihilator ↔
      l.eval s = op.annihilator ∨ r.eval s = op.annihilator :=
  op.eval_eq_annihilator_iff (l.eval s) (r.eval s)

/-- The balanced tree has the absorbing value when one of its operands has it. -/
theorem eval_join_iff (op : Connective) (es : List Expr) (s : State) :
    (join op es).eval s = op.annihilator ↔ op.Decided es s := by
  induction es using join.induct with
  | case1 =>
      rw [join, eval]
      exact iff_of_false op.identity_ne_annihilator (op.not_decided_nil s)
  | case2 e => rw [join, op.decided_singleton]
  | case3 e f rest all half ihFront ihBack =>
      rw [join, eval_binary_iff, ihFront, ihBack, ← op.decided_append, List.take_append_drop]

theorem eval_conj (es : List Expr) (s : State) : (conj es).eval s = es.all (·.eval s) := by
  rw [Bool.eq_iff_iff, ← not_iff_not, Bool.not_eq_true, List.all_eq_true]
  simp only [not_forall, Bool.not_eq_true, exists_prop]
  exact eval_join_iff .and es s

theorem eval_disj (es : List Expr) (s : State) : (disj es).eval s = es.any (·.eval s) := by
  rw [Bool.eq_iff_iff, List.any_eq_true]
  exact eval_join_iff .or es s

/-- The variables of the balanced tree are those of its operands. -/
theorem exists_of_contains_vars_join {op : Connective} {es : List Expr} {v : Variable}
    (member : (join op es).vars.contains v = true) : ∃ e ∈ es, e.vars.contains v = true := by
  induction es using join.induct with
  | case1 =>
      rw [join, vars, VarSet.contains_empty] at member
      cases member
  | case2 e =>
      rw [join] at member
      exact ⟨e, List.mem_singleton.mpr rfl, member⟩
  | case3 e f rest all half ihFront ihBack =>
      rw [join, vars, VarSet.contains_union, Bool.or_eq_true] at member
      rcases member with front | back
      · obtain ⟨g, listed, member⟩ := ihFront front
        exact ⟨g, List.mem_of_mem_take listed, member⟩
      · obtain ⟨g, listed, member⟩ := ihBack back
        exact ⟨g, List.mem_of_mem_drop listed, member⟩

theorem decided_operandsOnto (op : Connective) (e : Expr) (rest : List Expr) (s : State) :
    op.Decided (e.operandsOnto op rest) s ↔ e.eval s = op.annihilator ∨ op.Decided rest s := by
  induction e generalizing rest with
  | var v => exact op.decided_cons _ _ s
  | const b => exact op.decided_cons _ _ s
  | not e _ => exact op.decided_cons _ _ s
  | binary op' l r ihl ihr =>
      rw [operandsOnto]
      by_cases same : op' = op
      · rw [if_pos same, ihl, ihr, same, eval_binary_iff, or_assoc]
      · rw [if_neg same]
        exact op.decided_cons _ _ s

/-- A tree has the absorbing value of a connective when one of the operands of its chain has
it. -/
theorem decided_operands (op : Connective) (e : Expr) (s : State) :
    op.Decided (e.operands op) s ↔ e.eval s = op.annihilator := by
  rw [operands, decided_operandsOnto, or_iff_left (op.not_decided_nil s)]

end Expr

end SwitchingLogic
