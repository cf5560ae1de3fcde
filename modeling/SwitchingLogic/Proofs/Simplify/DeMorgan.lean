import SwitchingLogic.Proofs.Law.DeMorgan
import SwitchingLogic.Proofs.Law.Shrinking
import SwitchingLogic.Simplify

/-!
# Simplification with De Morgan's law

Negations are pushed inwards between two rounds of the laws.  After the first round there are no
constants that could be negated, so that pushing gives a negation normal form, and the second round
keeps it: a law leaves out operands, and what is merged into a chain negates only what was negated
before.
-/

namespace SwitchingLogic

namespace Law

theorem isNegationNormal_of_mem_contribution {op : Connective} {e f : Expr} {o : Outcome}
    (member : f ∈ (o.contribution op e).operands) (normal : (o.result?.getD e).IsNegationNormal) :
    f.IsNegationNormal := by
  unfold Outcome.contribution at member
  cases answer : o.result? with
  | none =>
      rw [answer] at normal member
      cases List.mem_singleton.mp member
      exact normal
  | some new =>
      rw [answer] at normal member
      exact normal.of_mem_operands member

theorem isNegationNormal_close (op : Connective) {e : Expr} {c : Contribution}
    (normal : e.IsNegationNormal) (parts : ∀ f ∈ c.operands, f.IsNegationNormal) :
    ((c.close op).result?.getD e).IsNegationNormal := by
  unfold Contribution.close
  dsimp only
  cases answer : (applyToChain op c.operands).result? with
  | none =>
      cases c.changed with
      | false => exact normal
      | true => exact Expr.negatesOnly_join op parts
  | some new =>
      rcases applyToChain_shape answer with ⟨b, rfl⟩ | ⟨rest, _, part, _, rfl⟩
      · trivial
      · exact Expr.negatesOnly_join op fun f member => parts f (part.subset member)

/-- A pass keeps the negation normal form, alone and as a part of any chain. -/
theorem isNegationNormal_pass_and_contribute {e : Expr} (normal : e.IsNegationNormal) :
    ((pass e).result?.getD e).IsNegationNormal ∧
      ∀ op, ∀ f ∈ (contribute e op).operands, f.IsNegationNormal := by
  induction e with
  | var | const =>
      rw [pass]
      refine ⟨normal, fun op f member => ?_⟩
      rw [contribute] at member
      exact isNegationNormal_of_mem_contribution member normal
  | not e _ =>
      obtain ⟨v, rfl⟩ := id normal
      refine ⟨normal, fun op f member => ?_⟩
      rw [contribute] at member
      exact isNegationNormal_of_mem_contribution member normal
  | binary op l r ihl ihr =>
      have parts : ∀ f ∈ ((contribute l op).append (contribute r op)).operands,
          f.IsNegationNormal := by
        intro f member
        rcases List.mem_append.mp member with front | back
        · exact (ihl normal.1).2 op f front
        · exact (ihr normal.2).2 op f back
      have closed := isNegationNormal_close op normal parts
      rw [pass]
      refine ⟨closed, fun op' f member => ?_⟩
      rw [contribute] at member
      by_cases same : op = op'
      · subst same
        rw [if_pos rfl] at member
        exact parts f member
      · rw [if_neg same] at member
        exact isNegationNormal_of_mem_contribution member closed

theorem isNegationNormal_applyUpTo (limit : Nat) {e : Expr} (normal : e.IsNegationNormal) :
    (applyUpTo limit e).1.IsNegationNormal := by
  induction limit generalizing e with
  | zero => exact normal
  | succ limit ih =>
      have once := (isNegationNormal_pass_and_contribute normal).1
      rw [applyUpTo]
      cases answer : (pass e).result? with
      | none => exact normal
      | some new =>
          rw [answer] at once
          exact ih once

theorem Reduced.constantFree {e : Expr} (reduced : Reduced e) : e.ConstantFree := by
  induction e with
  | var v => trivial
  | const b => exact reduced.elim
  | not e ih => exact ih reduced.1
  | binary op l r ihl ihr => exact ⟨ihl reduced.1, ihr reduced.2.1⟩

theorem Settled.isNegationNormal_pushed {e : Expr} (settled : Settled e) :
    (pushed e).IsNegationNormal := by
  rcases settled with reduced | ⟨b, rfl⟩
  · exact (negatesOnly_pushed_and_pushedNegation e).1.isNegationNormal
      (constantFree_pushed_and_pushedNegation reduced.constantFree).1
  · trivial

end Law

namespace Simplify

/-- The result with De Morgan's law negates variables only; it is a constant, or constants do not
occur in it; and neither the laws nor De Morgan's law fire on it any more.  By default the candidate
with De Morgan's law has the same expression and the same steps. -/
theorem deMorgan_normal (f : Formula) :
    ∃ r, run f .deMorgan = .ok r ∧ r.simplified.IsNegationNormal ∧
      ((∃ b, r.simplified = .const b) ∨ r.simplified.ConstantFree) ∧
      Law.pass r.simplified = .unchanged ∧ Law.push r.simplified = .unchanged ∧
      ∃ r', run f .auto = .ok r' ∧ (∃ c ∈ r'.candidates, c.method = .deMorgan) ∧
        ∀ c ∈ r'.candidates, c.method = .deMorgan → c.outcome = .ok ⟨r.simplified, r.steps⟩ := by
  have pushed := (Law.settled_apply f.expr).isNegationNormal_pushed
  have normal := Law.isNegationNormal_applyUpTo Law.maxPasses pushed
  have settled := Law.settled_apply (Law.pushed (Law.apply f.expr).1)
  refine ⟨_, rfl, normal, ?_, Law.pass_of_settled settled,
    Law.push_of_negatesOnly normal.negatesOnly, _, rfl, ?_, ?_⟩
  · rcases settled with reduced | constant
    · exact Or.inr reduced.constantFree
    · exact Or.inl constant
  · exact ⟨_, List.mem_cons_of_mem _ List.mem_cons_self, rfl⟩
  · intro c listed chosen
    simp only [List.mem_cons, List.not_mem_nil, or_false] at listed
    rcases listed with rfl | rfl | rfl
    · cases chosen
    · rfl
    · cases chosen

/-- A neutral constant, a negated sum and a sum that comes to stand in another one, in
`((A + B)'(C + 0))'`. -/
theorem deMorgan_normal_nested :
    let f : Formula := ⟨"!(!(A+B)(C+0))", "!(!(A+B)·(C+0))", .not (.binary .and
      (.not (.binary .or (.var ⟨0⟩) (.var ⟨1⟩))) (.binary .or (.var ⟨2⟩) (.const false)))⟩
    ∃ r, run f .deMorgan = .ok r ∧
      r.simplified = .binary .or (.binary .or (.var ⟨0⟩) (.var ⟨1⟩)) (.not (.var ⟨2⟩)) ∧
      r.simplified.IsNegationNormal ∧ Law.pass r.simplified = .unchanged ∧ r.steps.length = 3 ∧
      ∃ r', run f .auto = .ok r' ∧
        ⟨.deMorgan, .ok ⟨r.simplified, r.steps⟩⟩ ∈ r'.candidates := by
  intro f
  obtain ⟨r, done, normal, _, quiet, _, r', done', ⟨c, listed, chosen⟩, same⟩ := deMorgan_normal f
  have outcome := same c listed chosen
  have simplified : r.simplified =
      .binary .or (.binary .or (.var ⟨0⟩) (.var ⟨1⟩)) (.not (.var ⟨2⟩)) := by
    cases done
    decide +kernel
  have steps : r.steps.length = 3 := by
    cases done
    decide +kernel
  obtain ⟨method, derived⟩ := c
  subst chosen outcome
  exact ⟨r, done, simplified, normal, quiet, steps, r', done', listed⟩

end Simplify

end SwitchingLogic
