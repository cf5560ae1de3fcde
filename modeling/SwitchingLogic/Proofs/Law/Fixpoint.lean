import SwitchingLogic.Law.Pass
import SwitchingLogic.Proofs.Law.Reduced

/-!
# One pass is enough

A pass settles an expression: what it returns is reduced or a constant.  This is proved together
with what an expression contributes to the chain around it, since a chain that has collapsed to one
of its operands is merged there.  On a reduced expression a pass does nothing, so that the
repetition of passes ends with the second one.
-/

namespace SwitchingLogic.Law

/-- What the outcome leaves of the expression is settled, and without a result there was no
step. -/
structure Outcome.Settles (e : Expr) (o : Outcome) : Prop where
  settled : Settled (o.result?.getD e)
  steps_eq_nil : o.result? = none → o.steps = []

/-- The contribution consists of settled operands that are no chains themselves.  If nothing has
changed, it consists of the operands of the expression, and there was no step. -/
structure Contribution.Settles (op : Connective) (e : Expr) (c : Contribution) : Prop where
  settled : ∀ f ∈ c.operands, Settled f
  single : ∀ f ∈ c.operands, f.connective? ≠ some op
  unchanged : c.changed = false → c.operands = e.operands op ∧ c.steps = []

theorem Settled.of_mem_operands {op : Connective} {e f : Expr} (settled : Settled e)
    (member : f ∈ e.operands op) : Settled f := by
  rcases settled with reduced | ⟨b, rfl⟩
  · exact Or.inl (((reduced_iff_operands op e).mp reduced).1 f member)
  · cases List.mem_singleton.mp member
    exact Or.inr ⟨b, rfl⟩

theorem Outcome.settles_unchanged {e : Expr} (settled : Settled e) :
    Outcome.unchanged.Settles e :=
  ⟨settled, fun _ => rfl⟩

theorem Outcome.Settles.contribution {op : Connective} {e : Expr} {o : Outcome}
    (settles : o.Settles e) (root : e.connective? ≠ some op) :
    (o.contribution op e).Settles op e := by
  have settled := settles.settled
  unfold Outcome.contribution
  cases answer : o.result? with
  | none =>
      rw [answer] at settled
      constructor
      · intro f member
        cases List.mem_singleton.mp member
        exact settled
      · intro f member
        cases List.mem_singleton.mp member
        exact root
      · intro _
        exact ⟨(Expr.operands_eq_singleton root).symm, settles.steps_eq_nil answer⟩
  | some new =>
      rw [answer] at settled
      constructor
      · intro f member
        exact Settled.of_mem_operands settled member
      · intro f member
        exact Expr.connective?_ne_of_mem_operands member
      · intro changed
        cases changed

theorem Contribution.Settles.append {op : Connective} {l r : Expr} {a b : Contribution}
    (left : a.Settles op l) (right : b.Settles op r) :
    (a.append b).Settles op (.binary op l r) := by
  constructor
  · intro f member
    rcases List.mem_append.mp member with first | second
    · exact left.settled f first
    · exact right.settled f second
  · intro f member
    rcases List.mem_append.mp member with first | second
    · exact left.single f first
    · exact right.single f second
  · intro unchanged
    obtain ⟨first, second⟩ := Bool.or_eq_false_iff.mp unchanged
    obtain ⟨operands, steps⟩ := left.unchanged first
    obtain ⟨operands', steps'⟩ := right.unchanged second
    simp [Contribution.append, Expr.operands_binary, operands, operands', steps, steps']

theorem Outcome.Settles.negation {e : Expr} {o : Outcome} (settles : o.Settles e) :
    (negation e o).Settles (.not e) := by
  have settled := settles.settled
  unfold Law.negation
  split
  · exact ⟨Or.inr ⟨_, rfl⟩, fun none => nomatch none⟩
  · rename_i inner answer
    rw [answer] at settled
    refine ⟨?_, fun none => nomatch none⟩
    rcases settled with reduced | ⟨b, constant⟩
    · exact Or.inl reduced.1
    · cases constant
  · rename_i notConst notNegation
    have reduced : Reduced (.not (o.result?.getD e)) := by
      rcases settled with reduced | ⟨b, constant⟩
      · exact ⟨reduced, fun inner negated => notNegation inner negated⟩
      · exact absurd constant (notConst b)
    cases answer : o.result? with
    | none =>
        rw [answer] at reduced
        exact ⟨Or.inl reduced, fun _ => settles.steps_eq_nil answer⟩
    | some new =>
        rw [answer] at reduced
        exact ⟨Or.inl reduced, fun none => nomatch none⟩

theorem Contribution.Settles.close {op : Connective} {e : Expr} {c : Contribution}
    (settles : c.Settles op e) : (c.close op).Settles e := by
  unfold Contribution.close
  dsimp only
  rcases applyToChain_cases op c.operands with ⟨_, outcome⟩ | ⟨null, unopposed, outcome⟩
  · rw [outcome]
    exact ⟨Or.inr ⟨_, rfl⟩, fun none => nomatch none⟩
  · have tidy := tidy_survivors null unopposed
    by_cases same : survivors op (distinct op c.operands) = c.operands
    · rw [same] at tidy
      rw [if_pos same] at outcome
      have joined := settled_join settles.settled settles.single tidy
      rw [outcome]
      cases changed : c.changed with
      | true => exact ⟨joined, fun none => nomatch none⟩
      | false =>
          obtain ⟨operands, steps⟩ := settles.unchanged changed
          refine ⟨Or.inl ((reduced_iff_operands op e).mpr ?_), fun _ => steps⟩
          rw [← operands]
          refine ⟨fun f member => ?_, tidy.unrelated⟩
          rcases settles.settled f member with reduced | ⟨b, constant⟩
          · exact reduced
          · exact absurd constant (tidy.notConst f member b)
    · rw [if_neg same] at outcome
      rw [outcome]
      have part := (survivors_sublist op _).trans (distinct_sublist op c.operands)
      have joined := settled_join (fun f member => settles.settled f (part.subset member))
        (fun f member => settles.single f (part.subset member)) tidy
      exact ⟨joined, fun none => nomatch none⟩

/-- A pass settles the expression, alone and as a part of any chain. -/
theorem settles_pass_and_contribute (e : Expr) :
    (pass e).Settles e ∧ ∀ op, (contribute e op).Settles op e := by
  induction e with
  | var v =>
      have settles : Outcome.unchanged.Settles (.var v) :=
        Outcome.settles_unchanged (Or.inl trivial)
      rw [pass]
      refine ⟨settles, fun op => ?_⟩
      rw [contribute]
      exact settles.contribution fun root => nomatch root
  | const b =>
      have settles : Outcome.unchanged.Settles (.const b) :=
        Outcome.settles_unchanged (Or.inr ⟨b, rfl⟩)
      rw [pass]
      refine ⟨settles, fun op => ?_⟩
      rw [contribute]
      exact settles.contribution fun root => nomatch root
  | not e ih =>
      rw [pass]
      refine ⟨ih.1.negation, fun op => ?_⟩
      rw [contribute]
      exact ih.1.negation.contribution fun root => nomatch root
  | binary op l r ihl ihr =>
      have parts := (ihl.2 op).append (ihr.2 op)
      rw [pass]
      refine ⟨parts.close, fun op' => ?_⟩
      rw [contribute]
      by_cases same : op = op'
      · subst same
        rw [if_pos rfl]
        exact parts
      · rw [if_neg same]
        exact parts.close.contribution fun root => same (Option.some.inj root)

/-- On a reduced expression no law fires, alone and as a part of any chain. -/
theorem pass_and_contribute_of_reduced {e : Expr} (reduced : Reduced e) :
    pass e = .unchanged ∧ ∀ op, contribute e op = ⟨e.operands op, false, []⟩ := by
  induction e with
  | var v =>
      rw [pass]
      refine ⟨rfl, fun op => ?_⟩
      rw [contribute]
      rfl
  | const b => exact reduced.elim
  | not e ih =>
      have quiet : negation e (pass e) = .unchanged := by
        rw [(ih reduced.1).1]
        cases e with
        | const b => exact reduced.1.elim
        | not inner => exact absurd rfl (reduced.2 inner)
        | var v => rfl
        | binary op l r => rfl
      rw [pass]
      refine ⟨quiet, fun op => ?_⟩
      rw [contribute, quiet]
      rfl
  | binary op l r ihl ihr =>
      obtain ⟨left, right, _⟩ := id reduced
      have parts : (contribute l op).append (contribute r op) =
          ⟨(Expr.binary op l r).operands op, false, []⟩ := by
        rw [(ihl left).2, (ihr right).2, Expr.operands_binary]
        rfl
      have quiet : ((contribute l op).append (contribute r op)).close op = .unchanged := by
        rw [parts, Contribution.close, applyToChain_of_tidy (reduced.tidy op)]
        rfl
      rw [pass]
      refine ⟨quiet, fun op' => ?_⟩
      rw [contribute]
      by_cases same : op = op'
      · subst same
        rw [if_pos rfl, parts]
      · have other : (Expr.binary op l r).connective? ≠ some op' :=
          fun root => same (Option.some.inj root)
        rw [if_neg same, quiet, Expr.operands_eq_singleton other]
        rfl

theorem pass_of_settled {e : Expr} (settled : Settled e) : pass e = .unchanged := by
  rcases settled with reduced | ⟨b, rfl⟩
  · exact (pass_and_contribute_of_reduced reduced).1
  · rw [pass]

theorem applyUpTo_of_settled (limit : Nat) {e : Expr} (settled : Settled e) :
    applyUpTo limit e = (e, []) := by
  cases limit with
  | zero => rfl
  | succ limit =>
      rw [applyUpTo, pass_of_settled settled]
      rfl

/-- All that is ever done is done in the first pass. -/
theorem applyUpTo_succ (limit : Nat) (e : Expr) :
    applyUpTo (limit + 1) e = ((pass e).result?.getD e, (pass e).steps) := by
  have settled := (settles_pass_and_contribute e).1.settled
  rw [applyUpTo]
  cases answer : (pass e).result? with
  | none => rfl
  | some new =>
      rw [answer, Option.getD_some] at settled
      simp only [applyUpTo_of_settled limit settled, List.append_nil, Option.getD_some]

theorem settled_apply (e : Expr) : Settled (apply e).1 := by
  rw [apply, maxPasses, applyUpTo_succ]
  exact (settles_pass_and_contribute e).1.settled

/-- Repeated passes end in a fixpoint, and with the first pass, so that the greatest number of
passes does not matter.  What they end in is a constant, or it is reduced: there are no constants,
no double negations and no chains with repeated, complementary or absorbed operands in it. -/
theorem apply_fixpoint (e : Expr) :
    apply (apply e).1 = ((apply e).1, []) ∧ pass (apply e).1 = .unchanged ∧
      (∀ limit, applyUpTo (limit + 1) e = apply e) ∧
      ((∃ b, (apply e).1 = .const b) ∨ Reduced (apply e).1) := by
  have first : apply e = ((pass e).result?.getD e, (pass e).steps) := applyUpTo_succ _ e
  have settled := settled_apply e
  refine ⟨applyUpTo_of_settled _ settled, pass_of_settled settled, fun limit => ?_, settled.symm⟩
  rw [first]
  exact applyUpTo_succ limit e

end SwitchingLogic.Law
