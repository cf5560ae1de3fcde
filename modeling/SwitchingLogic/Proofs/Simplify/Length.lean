import SwitchingLogic.Proofs.Error.Results
import SwitchingLogic.Proofs.Law.Shrinking
import SwitchingLogic.Simplify

/-!
# Lengths of simplified expressions

The laws never make an expression longer, and the choice among several candidates falls on one that
no other candidate undercuts.  So wherever the laws alone are among the candidates, the result is
not longer than the given expression.
-/

namespace SwitchingLogic.Simplify

/-- A choice has been made, and it is not longer than so many characters. -/
def Within (length : Nat) (best? : Option (Method × Derivation)) : Prop :=
  ∃ best, best? = some best ∧ best.2.expr.textLength ≤ length

theorem within_better_of_outcome (best? : Option (Method × Derivation)) {c : Candidate}
    {d : Derivation} (found : c.outcome = .ok d) :
    Within d.expr.textLength (better best? c) := by
  unfold better
  rw [found]
  cases best? with
  | none => exact ⟨_, rfl, Nat.le_refl _⟩
  | some best =>
      dsimp only
      split
      · exact ⟨_, rfl, Nat.le_refl _⟩
      · rename_i longer
        exact ⟨_, rfl, Nat.le_of_not_lt longer⟩

/-- A choice is given up for a shorter one only. -/
theorem Within.better {length : Nat} {best? : Option (Method × Derivation)}
    (within : Within length best?) (c : Candidate) : Within length (better best? c) := by
  obtain ⟨best, rfl, short⟩ := within
  unfold Simplify.better
  split
  · exact ⟨best, rfl, short⟩
  · contradiction
  · rename_i d best' _ same
    cases same
    split
    · rename_i shorter
      exact ⟨_, rfl, (Nat.le_of_lt shorter).trans short⟩
    · exact ⟨best, rfl, short⟩

theorem Within.foldl_better {length : Nat} {best? : Option (Method × Derivation)}
    (within : Within length best?) (cs : List Candidate) :
    Within length (cs.foldl Simplify.better best?) := by
  induction cs generalizing best? with
  | nil => exact within
  | cons c rest ih => exact ih (within.better c)

/-- What is chosen is not longer than any candidate that was derived. -/
theorem within_foldl_better {cs : List Candidate} {c : Candidate} {d : Derivation}
    (listed : c ∈ cs) (found : c.outcome = .ok d) (best? : Option (Method × Derivation)) :
    Within d.expr.textLength (cs.foldl better best?) := by
  induction cs generalizing best? with
  | nil => cases listed
  | cons first rest ih =>
      rcases List.mem_cons.mp listed with rfl | later
      · exact (within_better_of_outcome best? found).foldl_better rest
      · exact ih later (better best? first)

/-- The result is not longer than any candidate that was derived. -/
theorem textLength_run_le {f : Formula} {method : Method} {r : Result}
    (done : run f method = .ok r) {c : Candidate} {d : Derivation} (listed : c ∈ r.candidates)
    (found : c.outcome = .ok d) : r.simplified.textLength ≤ d.expr.textLength := by
  obtain ⟨cs, _, finished⟩ := Error.bind_eq_ok_iff.mp done
  cases finished
  obtain ⟨best, chosen, short⟩ := within_foldl_better listed found none
  dsimp only
  rwa [chosen]

/-- The laws make an expression neither longer nor larger, and each step has paid with a node.  With
the laws alone, and by default, the result is not longer than the formula; by default it is not
longer than any candidate that was derived, either. -/
theorem never_longer :
    (∀ e : Expr, (Law.apply e).1.textLength ≤ e.textLength ∧
      (Law.apply e).1.complexity + (Law.apply e).2.length ≤ e.complexity) ∧
    ∀ f : Formula,
      (∃ r, run f .basic = .ok r ∧ r.simplified.textLength ≤ f.expr.textLength) ∧
      ∃ r, run f .auto = .ok r ∧ r.simplified.textLength ≤ f.expr.textLength ∧
        ∀ c ∈ r.candidates, ∀ d, c.outcome = .ok d →
          r.simplified.textLength ≤ d.expr.textLength := by
  have shorter (e : Expr) : (Law.apply e).1.textLength ≤ e.textLength :=
    (Law.shrinks_applyUpTo Law.maxPasses e).1.textLength_le
  refine ⟨fun e => ⟨shorter e, ?_⟩, fun f => ⟨⟨_, rfl, shorter f.expr⟩, ?_⟩⟩
  · have fewer := (Law.shrinks_applyUpTo Law.maxPasses e).2
    simp only [Expr.nodes] at fewer
    simp only [Law.apply]
    omega
  · have done : run f .auto = .ok _ := rfl
    have basic := textLength_run_le done List.mem_cons_self rfl
    refine ⟨_, done, basic.trans (shorter f.expr), ?_⟩
    intro c listed d found
    exact textLength_run_le done listed found

/-- Double negation, the neutral constant and a repetition in `(A(B + 0)A)''`. -/
theorem never_longer_grouped :
    let f : Formula := ⟨"!!(A(B+0)A)", "!!(A·(B+0)·A)", .not (.not (.binary .and (.binary .and
      (.var ⟨0⟩) (.binary .or (.var ⟨1⟩) (.const false))) (.var ⟨0⟩)))⟩
    f.expr.textLength = 13 ∧ f.expr.complexity = 9 ∧ (Law.apply f.expr).2.length = 3 ∧
      (Law.apply f.expr).1.complexity ≤ 6 ∧
      ∃ r, run f .auto = .ok r ∧ r.simplified.textLength ≤ 13 ∧
        ∀ d, (⟨.deMorgan, .ok d⟩ : Candidate) ∈ r.candidates →
          r.simplified.textLength ≤ d.expr.textLength := by
  intro f
  have long : f.expr.textLength = 13 := by decide +kernel
  have large : f.expr.complexity = 9 := rfl
  have steps : (Law.apply f.expr).2.length = 3 := by decide +kernel
  obtain ⟨all, formulas⟩ := never_longer
  obtain ⟨_, r, done, short, least⟩ := formulas f
  have fewer := (all f.expr).2
  refine ⟨long, large, steps, by omega, r, done, long ▸ short, ?_⟩
  intro d listed
  exact least _ listed d rfl

end SwitchingLogic.Simplify
