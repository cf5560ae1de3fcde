import SwitchingLogic.Law.DeMorgan
import SwitchingLogic.Proofs.Expr.NegationNormal

/-!
# Pushing negations inwards

De Morgan's law replaces a negated connective by a new expression, which has to be gone through in
its turn.  That comes to an end: what becomes of an expression and what becomes of its negation are
found together, by recursion on the expression.  The result is the negation normal form, except that
constants may still be negated.
-/

namespace SwitchingLogic.Law

open SwitchingLogic.Expr (IsLeaf NegatesOnly)

/-- The pass goes through the expression and ends with the outcome.  Where a law fires, the pass
goes on with the expression after the step. -/
inductive Pushes : Expr → Outcome → Prop where
  | leaf {e : Expr} (leaf : e.IsLeaf) : Pushes e .unchanged
  | notLeaf {e : Expr} (leaf : e.IsLeaf) : Pushes (.not e) .unchanged
  | notNot {e : Expr} {o : Outcome} (inner : Pushes e o) :
      Pushes (.not (.not e))
        ⟨some (o.result?.getD e), ⟨.doubleNegation, .not (.not e), e⟩ :: o.steps⟩
  | notBinary {op : Connective} {l r : Expr} {o : Outcome}
      (pushed : Pushes (.binary op.dual (.not l) (.not r)) o) :
      Pushes (.not (.binary op l r))
        ⟨some (o.result?.getD (.binary op.dual (.not l) (.not r))),
          ⟨.deMorgan, .not (.binary op l r), .binary op.dual (.not l) (.not r)⟩ :: o.steps⟩
  | binary {op : Connective} {l r : Expr} {a b : Outcome} (left : Pushes l a)
      (right : Pushes r b) : Pushes (.binary op l r) (combine op l r a b)

theorem pushes_push_and_pushNegated (e : Expr) :
    Pushes e (push e) ∧ Pushes (.not e) (pushNegated e) := by
  induction e with
  | var v => exact ⟨.leaf (Or.inl ⟨v, rfl⟩), .notLeaf (Or.inl ⟨v, rfl⟩)⟩
  | const b => exact ⟨.leaf (Or.inr ⟨b, rfl⟩), .notLeaf (Or.inr ⟨b, rfl⟩)⟩
  | not e ih => exact ⟨ih.2, .notNot ih.1⟩
  | binary op l r ihl ihr => exact ⟨.binary ihl.1 ihr.1, .notBinary (.binary ihl.2 ihr.2)⟩

/-- The pass comes to an end on every expression, with one outcome. -/
theorem pushes_iff {e : Expr} {o : Outcome} : Pushes e o ↔ push e = o := by
  constructor
  · intro pushes
    induction pushes with
    | leaf leaf | notLeaf leaf =>
        obtain ⟨v, rfl⟩ | ⟨b, rfl⟩ := leaf
        · rfl
        · rfl
    | notNot inner ih =>
        subst ih
        rfl
    | notBinary pushed ih =>
        subst ih
        rfl
    | binary left right ihl ihr =>
        subst ihl ihr
        rfl
  · rintro rfl
    exact (pushes_push_and_pushNegated e).1

def pushed (e : Expr) : Expr := (push e).result?.getD e

def pushedNegation (e : Expr) : Expr := (pushNegated e).result?.getD (.not e)

theorem getD_combine (op : Connective) (l r : Expr) (a b : Outcome) :
    (combine op l r a b).result?.getD (.binary op l r) =
      .binary op (a.result?.getD l) (b.result?.getD r) := by
  unfold combine
  cases a.result? <;> cases b.result? <;> rfl

@[simp]
theorem pushed_not (e : Expr) : pushed (.not e) = pushedNegation e := rfl

@[simp]
theorem pushed_binary (op : Connective) (l r : Expr) :
    pushed (.binary op l r) = .binary op (pushed l) (pushed r) :=
  getD_combine op l r _ _

@[simp]
theorem pushedNegation_not (e : Expr) : pushedNegation (.not e) = pushed e := rfl

@[simp]
theorem pushedNegation_binary (op : Connective) (l r : Expr) :
    pushedNegation (.binary op l r) = .binary op.dual (pushedNegation l) (pushedNegation r) :=
  getD_combine op.dual (.not l) (.not r) _ _

/-- Only variables and constants are still negated. -/
theorem negatesOnly_pushed_and_pushedNegation (e : Expr) :
    (pushed e).NegatesOnly IsLeaf ∧ (pushedNegation e).NegatesOnly IsLeaf := by
  induction e with
  | var v => exact ⟨trivial, Or.inl ⟨v, rfl⟩⟩
  | const b => exact ⟨trivial, Or.inr ⟨b, rfl⟩⟩
  | not e ih => exact ⟨ih.2, ih.1⟩
  | binary op l r ihl ihr =>
      rw [pushed_binary, pushedNegation_binary]
      exact ⟨⟨ihl.1, ihr.1⟩, ihl.2, ihr.2⟩

/-- No constants come up. -/
theorem constantFree_pushed_and_pushedNegation {e : Expr} (free : e.ConstantFree) :
    (pushed e).ConstantFree ∧ (pushedNegation e).ConstantFree := by
  induction e with
  | var v => exact ⟨trivial, trivial⟩
  | const b => exact free.elim
  | not e ih => exact ⟨(ih free).2, (ih free).1⟩
  | binary op l r ihl ihr =>
      rw [pushed_binary, pushedNegation_binary]
      exact ⟨⟨(ihl free.1).1, (ihr free.2).1⟩, (ihl free.1).2, (ihr free.2).2⟩

/-- Where only variables and constants are negated there is nothing to do. -/
theorem push_of_negatesOnly {e : Expr} (only : e.NegatesOnly IsLeaf) : push e = .unchanged := by
  induction e with
  | var | const => rfl
  | not e _ => exact pushes_iff.mp (.notLeaf only)
  | binary op l r ihl ihr =>
      rw [push, ihl only.1, ihr only.2]
      rfl

theorem pushNegations_of_negatesOnly {e : Expr} (only : e.NegatesOnly IsLeaf) :
    pushNegations e = (e, []) := by
  rw [pushNegations, push_of_negatesOnly only]
  rfl

theorem resolveConstants_pushed_and_pushedNegation (e : Expr) :
    (pushed e).resolveConstants = e.nnfOf true ∧
      (pushedNegation e).resolveConstants = e.nnfOf false := by
  induction e with
  | var v => exact ⟨rfl, rfl⟩
  | const b => exact ⟨rfl, rfl⟩
  | not e ih =>
      rw [Expr.nnfOf_not, Expr.nnfOf_not]
      exact ⟨ih.2, ih.1⟩
  | binary op l r ihl ihr =>
      simp [Expr.resolveConstants, ihl, ihr]

/-- Pushing negations inwards and building the negation normal form agree up to negated constants.
The form negates variables only and has the value of the expression; each of the two leaves its own
result alone; and the pass comes to an end on every expression, although it goes on with expressions
that it has built. -/
theorem pushNegations_agrees :
    (∀ e, (pushNegations e).1.resolveConstants = e.nnf) ∧
    (∀ e : Expr, e.nnf.IsNegationNormal ∧ ∀ s, e.nnf.eval s = e.eval s) ∧
    (∀ e, pushNegations (pushNegations e).1 = ((pushNegations e).1, [])) ∧
    (∀ e : Expr, e.nnf.nnf = e.nnf) ∧
    ∀ e, ∃! o, Pushes e o ∧ pushNegations e = (o.result?.getD e, o.steps) := by
  refine ⟨fun e => (resolveConstants_pushed_and_pushedNegation e).1, fun e => ⟨?_, fun s => ?_⟩,
    fun e => ?_, fun e => ?_, fun e => ⟨push e, ⟨pushes_iff.mpr rfl, rfl⟩, ?_⟩⟩
  · exact e.isNegationNormal_nnfOf true
  · exact (e.eval_nnfOf true s).trans (beq_true _)
  · exact pushNegations_of_negatesOnly (negatesOnly_pushed_and_pushedNegation e).1
  · exact (e.isNegationNormal_nnfOf true).nnf_eq
  · rintro o ⟨pushes, _⟩
    exact (pushes_iff.mp pushes).symm

end SwitchingLogic.Law
