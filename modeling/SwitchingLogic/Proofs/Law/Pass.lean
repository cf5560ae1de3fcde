import SwitchingLogic.Law.DeMorgan
import SwitchingLogic.Law.Pass
import SwitchingLogic.Proofs.Law.Chain

/-!
# Soundness of passes

A pass over an expression and the contribution of an expression to the chain around it are proved
sound together, and so are pushing an expression and pushing its negation.
-/

namespace SwitchingLogic.Law

/-- The contribution decides the chain when the expression does, and its steps are sound. -/
structure Contribution.Sound (op : Connective) (e : Expr) (c : Contribution) : Prop where
  decided : ∀ s, op.Decided c.operands s ↔ e.eval s = op.annihilator
  steps : ∀ step ∈ c.steps, step.Sound

theorem sound_append {steps steps' : List Step} (first : ∀ step ∈ steps, step.Sound)
    (second : ∀ step ∈ steps', step.Sound) : ∀ step ∈ steps ++ steps', step.Sound := by
  intro step member
  rcases List.mem_append.mp member with earlier | later
  · exact first step earlier
  · exact second step later

theorem Contribution.Sound.append {op : Connective} {l r : Expr} {a b : Contribution}
    (left : a.Sound op l) (right : b.Sound op r) : (a.append b).Sound op (.binary op l r) := by
  constructor
  · intro s
    rw [Contribution.append, op.decided_append, left.decided, right.decided, Expr.eval_binary_iff]
  · exact sound_append left.steps right.steps

theorem Outcome.Sound.contribution {op : Connective} {e : Expr} {o : Outcome}
    (sound : o.Sound e) : (o.contribution op e).Sound op e := by
  have value := sound.value
  unfold Outcome.contribution
  cases answer : o.result? with
  | none => exact ⟨op.decided_singleton e, sound.steps⟩
  | some new =>
      rw [answer, Option.getD_some] at value
      exact ⟨fun s => by rw [Expr.decided_operands, value], sound.steps⟩

theorem Outcome.Sound.negation {e : Expr} {o : Outcome} (sound : o.Sound e) :
    (negation e o).Sound (.not e) := by
  have value := sound.value
  unfold Law.negation
  split
  · rename_i b answer
    rw [answer] at value
    refine ⟨fun s => congrArg _ (value s), sound_append sound.steps fun step only => ?_⟩
    cases List.mem_singleton.mp only
    exact fun s => rfl
  · rename_i inner answer
    rw [answer] at value
    constructor
    · intro s
      rw [Option.getD_some, Expr.eval, ← value, Expr.eval, Bool.not_not]
    · refine sound_append sound.steps fun step only => ?_
      cases List.mem_singleton.mp only
      exact fun s => Bool.not_not _
  · refine ⟨fun s => ?_, sound.steps⟩
    cases answer : o.result? with
    | none => rfl
    | some new =>
        rw [answer] at value
        exact congrArg _ (value s)

theorem Contribution.Sound.close {op : Connective} {e : Expr} {c : Contribution}
    (sound : c.Sound op e) : (c.close op).Sound e := by
  have joined (s : State) : (Expr.join op c.operands).eval s = e.eval s := by
    apply op.eq_of_eq_annihilator_iff
    rw [Expr.eval_join_iff, sound.decided]
  have laws := sound_applyToChain op c.operands
  unfold Contribution.close
  dsimp only
  cases answer : (applyToChain op c.operands).result? with
  | none =>
      refine ⟨fun s => ?_, sound.steps⟩
      by_cases changed : c.changed = true
      · rw [if_pos changed]
        exact joined s
      · rw [if_neg changed]
        rfl
  | some new =>
      have value := laws.value
      rw [answer] at value
      exact ⟨fun s => (value s).trans (joined s), sound_append sound.steps laws.steps⟩

/-- One pass keeps the value, alone and as a part of any chain. -/
theorem sound_pass_and_contribute (e : Expr) :
    (pass e).Sound e ∧ ∀ op, (contribute e op).Sound op e := by
  induction e with
  | var | const =>
      rw [pass]
      refine ⟨Outcome.sound_unchanged _, fun op => ?_⟩
      rw [contribute]
      exact (Outcome.sound_unchanged _).contribution
  | not e ih =>
      rw [pass]
      refine ⟨ih.1.negation, fun op => ?_⟩
      rw [contribute]
      exact ih.1.negation.contribution
  | binary op l r ihl ihr =>
      have parts := (ihl.2 op).append (ihr.2 op)
      rw [pass]
      refine ⟨parts.close, fun op' => ?_⟩
      rw [contribute]
      by_cases same : op = op'
      · subst same
        rw [if_pos rfl]
        exact parts
      · rw [if_neg same]
        exact parts.close.contribution

theorem sound_applyUpTo (limit : Nat) (e : Expr) :
    (∀ s, (applyUpTo limit e).1.eval s = e.eval s) ∧
      ∀ step ∈ (applyUpTo limit e).2, step.Sound := by
  induction limit generalizing e with
  | zero => exact ⟨fun s => rfl, fun step none => (List.not_mem_nil none).elim⟩
  | succ limit ih =>
      have once := (sound_pass_and_contribute e).1
      rw [applyUpTo]
      cases answer : (pass e).result? with
      | none => exact ⟨fun s => rfl, once.steps⟩
      | some new =>
          have value := once.value
          rw [answer] at value
          obtain ⟨values, steps⟩ := ih new
          exact ⟨fun s => (values s).trans (value s), sound_append once.steps steps⟩

theorem Outcome.Sound.combine {op : Connective} {l r : Expr} {a b : Outcome}
    (left : a.Sound l) (right : b.Sound r) :
    (combine op l r a b).Sound (.binary op l r) := by
  have steps := sound_append left.steps right.steps
  have value (s : State) : (Expr.binary op (a.result?.getD l) (b.result?.getD r)).eval s =
      (Expr.binary op l r).eval s := by
    rw [Expr.eval, Expr.eval, left.value, right.value]
  unfold Law.combine
  split
  · exact ⟨fun s => rfl, steps⟩
  · exact ⟨value, steps⟩

theorem sound_push_and_pushNegated (e : Expr) :
    (push e).Sound e ∧ (pushNegated e).Sound (.not e) := by
  induction e with
  | var | const =>
      rw [push, pushNegated]
      exact ⟨Outcome.sound_unchanged _, Outcome.sound_unchanged _⟩
  | not e ih =>
      rw [push, pushNegated]
      refine ⟨ih.2, fun s => ?_, fun step member => ?_⟩
      · rw [Option.getD_some, ih.1.value, Expr.eval, Expr.eval, Bool.not_not]
      · rcases List.mem_cons.mp member with rfl | later
        · exact fun s => Bool.not_not _
        · exact ih.1.steps step later
  | binary op l r ihl ihr =>
      rw [push, pushNegated]
      have pushed (s : State) : (Expr.not (.binary op l r)).eval s =
          (Expr.binary op.dual (.not l) (.not r)).eval s :=
        (op.eval_dual_not (l.eval s) (r.eval s)).symm
      have inner : (combine op.dual (.not l) (.not r) (pushNegated l) (pushNegated r)).Sound
          (.binary op.dual (.not l) (.not r)) := ihl.2.combine ihr.2
      refine ⟨ihl.1.combine ihr.1, fun s => ?_, fun step member => ?_⟩
      · rw [Option.getD_some, inner.value, pushed]
      · rcases List.mem_cons.mp member with rfl | later
        · exact pushed
        · exact inner.steps step later

end SwitchingLogic.Law
