import SwitchingLogic.Proofs.Expr.Width
import SwitchingLogic.Proofs.Law.Fixpoint

/-!
# The laws make expressions smaller

A law that fires on a chain leaves out operands, and with each of them a sign and at least two
nodes.  So what a pass makes of an expression fits wherever the expression stood, parentheses
included, and the nodes that are gone outnumber the steps taken.
-/

namespace SwitchingLogic.Law

open SwitchingLogic.Expr (total nodes slot)

/-- What is left of the operands is a part of the given ones, and each step has left out at least
one of them. -/
structure Chain.Saves (given : List Expr) (c : Chain) : Prop where
  part : c.operands.Sublist given
  steps : c.steps.length + c.operands.length ≤ given.length

theorem Chain.saves_start (given : List Expr) : Chain.Saves given ⟨given, []⟩ := by
  constructor
  · exact List.Sublist.refl given
  · simp

theorem Chain.Saves.shrink {given es : List Expr} {c : Chain} (saves : c.Saves given)
    (op : Connective) (law : Law) (part : es.Sublist c.operands) :
    (c.shrink op law es).Saves given := by
  have steps := saves.steps
  unfold Chain.shrink
  split
  · rename_i fewer
    constructor
    · exact part.trans saves.part
    · simp only [List.length_append, List.length_singleton]
      omega
  · exact saves

theorem saves_single (op : Connective) (es : List Expr) : (Chain.single op es).Saves es := by
  have neutral : (Chain.neutral op es).Saves es :=
    (Chain.saves_start es).shrink op .identity List.filter_sublist
  exact neutral.shrink op .idempotent (eraseDups_sublist _)

theorem saves_least (op : Connective) (es : List Expr) : (Chain.least op es).Saves es :=
  (saves_single op es).shrink op .absorption (survivors_sublist op _)

theorem two_le_length_of_hasComplement {es : List Expr} (found : hasComplement es = true) :
    2 ≤ es.length := by
  match es with
  | [] => cases found
  | [e] => simp [hasComplement] at found
  | e :: f :: rest => simp

/-- What a round on a chain leaves: a constant, or a join of some of the operands but not of all of
them. -/
theorem applyToChain_shape {op : Connective} {es : List Expr} {new : Expr}
    (answer : (applyToChain op es).result? = some new) :
    (∃ b, new = .const b) ∨
      ∃ rest, rest ≠ [] ∧ rest.Sublist es ∧ rest.length < es.length ∧ new = Expr.join op rest := by
  rw [applyToChain_eq] at answer
  split at answer
  · cases answer
    exact Or.inl ⟨_, rfl⟩
  · split at answer
    · cases answer
      exact Or.inl ⟨_, rfl⟩
    · split at answer
      · cases answer
      · rename_i taken
        cases answer
        have saves := saves_least op es
        have fired : 0 < (Chain.least op es).steps.length :=
          List.length_pos_iff.mpr fun none => taken (List.isEmpty_iff.mpr none)
        have steps := saves.steps
        by_cases none : (Chain.least op es).operands = []
        · rw [none, Expr.join]
          exact Or.inl ⟨_, rfl⟩
        · exact Or.inr ⟨_, none, saves.part, by omega, rfl⟩

/-- Each step of a round on a chain has paid with a node. -/
theorem applyToChain_nodes {op : Connective} {es : List Expr} {new : Expr}
    (several : 2 ≤ es.length) (answer : (applyToChain op es).result? = some new) :
    new.nodes + (applyToChain op es).steps.length ≤ total nodes es := by
  have all : 2 * es.length ≤ total nodes es := Expr.mul_length_le_total Expr.two_le_nodes es
  have digit (b : Bool) : (Expr.const b).nodes = 2 := rfl
  rw [applyToChain_eq] at answer ⊢
  split at answer
  · rename_i null
    cases answer
    simp only [if_pos null, digit, List.length_singleton]
    omega
  · rename_i null
    split at answer
    · rename_i opposed
      cases answer
      have pair := two_le_length_of_hasComplement opposed
      have steps := (saves_single op es).steps
      simp only [if_neg null, if_pos opposed, digit, List.length_append, List.length_singleton]
      omega
    · rename_i opposed
      split at answer
      · cases answer
      · rename_i taken
        cases answer
        have saves := saves_least op es
        have steps := saves.steps
        simp only [if_neg null, if_neg opposed, if_neg taken]
        by_cases none : (Chain.least op es).operands = []
        · rw [none, List.length_nil] at steps
          rw [none, Expr.join, digit]
          omega
        · have saved := Expr.total_add_le_of_sublist Expr.two_le_nodes saves.part
          rw [(Expr.addsUp_nodes op).total_join none]
          omega

/-! ## One pass -/

/-- What the outcome leaves of the expression fits wherever the expression did, and each step has
paid with a node. -/
structure Outcome.Shrinks (e : Expr) (o : Outcome) : Prop where
  fits : (o.result?.getD e).Fits e
  nodes : (o.result?.getD e).nodes + o.steps.length ≤ e.nodes

/-- The operands contributed take up no more room in the chain than the expression did, and each
step has paid with a node. -/
structure Contribution.Shrinks (op : Connective) (e : Expr) (c : Contribution) : Prop where
  some' : c.operands ≠ []
  room : total (slot op) c.operands ≤ e.slot op
  nodes : total nodes c.operands + c.steps.length ≤ e.nodes

theorem Outcome.shrinks_unchanged (e : Expr) : Outcome.unchanged.Shrinks e :=
  ⟨Expr.Fits.refl e, Nat.le_refl _⟩

theorem Outcome.Shrinks.contribution {op : Connective} {e : Expr} {o : Outcome}
    (shrinks : o.Shrinks e) : (o.contribution op e).Shrinks op e := by
  obtain ⟨fits, fewer⟩ := shrinks
  unfold Outcome.contribution
  cases answer : o.result? with
  | none =>
      rw [answer] at fewer
      exact ⟨List.cons_ne_nil e [], Nat.le_refl _, fewer⟩
  | some new =>
      rw [answer, Option.getD_some] at fits fewer
      constructor
      · exact Expr.operands_ne_nil op new
      · rw [(Expr.addsUp_slot op).total_operands]
        exact fits.slot_le op
      · rw [(Expr.addsUp_nodes op).total_operands]
        exact fewer

theorem Contribution.Shrinks.append {op : Connective} {l r : Expr} {a b : Contribution}
    (left : a.Shrinks op l) (right : b.Shrinks op r) :
    (a.append b).Shrinks op (.binary op l r) := by
  constructor
  · exact List.append_ne_nil_of_left_ne_nil left.some' _
  · rw [Expr.addsUp_slot op l r]
    exact (Expr.total_append _ _ _).trans_le (Nat.add_le_add left.room right.room)
  · have first := left.nodes
    have second := right.nodes
    simp only [Contribution.append, Expr.total_append, List.length_append, Expr.addsUp_nodes op l r]
    omega

theorem Outcome.Shrinks.negation {e : Expr} {o : Outcome} (shrinks : o.Shrinks e) :
    (negation e o).Shrinks (.not e) := by
  obtain ⟨fits, fewer⟩ := shrinks
  unfold Law.negation
  split
  · rename_i b answer
    rw [answer] at fewer
    constructor
    · exact Expr.fits_of_leaf rfl rfl
    · simp only [Option.getD_some, List.length_append, List.length_singleton]
      simp only [Expr.nodes, Expr.complexity] at fewer ⊢
      omega
  · rename_i inner answer
    rw [answer] at fits fewer
    constructor
    · exact (Expr.fits_not_not inner).trans fits.not
    · simp only [Option.getD_some, List.length_append, List.length_singleton]
      simp only [Expr.nodes, Expr.complexity] at fewer ⊢
      omega
  · have kept : (o.result?.map Expr.not).getD (.not e) = .not (o.result?.getD e) := by
      cases o.result? <;> rfl
    constructor
    · rw [kept]
      exact fits.not
    · rw [kept]
      simp only [Expr.nodes, Expr.complexity] at fewer ⊢
      omega

/-- A chain that has become shorter makes up for the parentheses of a single operand, and one that
has not is still a chain. -/
theorem Contribution.Shrinks.close {op : Connective} {e : Expr} {c : Contribution}
    (shrinks : c.Shrinks op e) (root : e.connective? = some op) (several : 2 ≤ c.operands.length)
    (idle : c.changed = false → c.steps = []) : (c.close op).Shrinks e := by
  obtain ⟨some', room, fewer⟩ := shrinks
  have whole := Expr.slot_of_root root
  unfold Contribution.close
  dsimp only
  cases answer : (applyToChain op c.operands).result? with
  | none =>
      cases changed : c.changed with
      | false => exact ⟨Expr.Fits.refl e, by simp [idle changed]⟩
      | true =>
          have chain := Expr.connective?_join op several
          rw [← (Expr.addsUp_slot op).total_join some'] at room
          rw [← (Expr.addsUp_nodes op).total_join some'] at fewer
          exact ⟨Expr.fits_of_slot_le root room fun other => absurd chain other, fewer⟩
  | some new =>
      have paid := applyToChain_nodes several answer
      constructor
      · rcases applyToChain_shape answer with ⟨b, rfl⟩ | ⟨rest, kept, part, short, rfl⟩
        · exact Expr.fits_of_leaf rfl rfl
        · have saved := Expr.total_add_le_of_sublist (Expr.signWidth_lt_slot op) part
          have gone : 1 ≤ c.operands.length - rest.length := by omega
          have least := Nat.mul_le_mul_left (Expr.signWidth op + 1) gone
          rw [← (Expr.addsUp_slot op).total_join kept] at saved
          refine Expr.fits_of_slot_le root ?_ fun _ => ?_
          · simp only [Option.getD_some]
            omega
          · simp only [Option.getD_some]
            omega
      · simp only [Option.getD_some, List.length_append]
        omega

/-- One pass shrinks an expression, alone and as a part of any chain. -/
theorem shrinks_pass_and_contribute (e : Expr) :
    (pass e).Shrinks e ∧ ∀ op, (contribute e op).Shrinks op e := by
  induction e with
  | var | const =>
      rw [pass]
      refine ⟨Outcome.shrinks_unchanged _, fun op => ?_⟩
      rw [contribute]
      exact (Outcome.shrinks_unchanged _).contribution
  | not e ih =>
      rw [pass]
      refine ⟨ih.1.negation, fun op => ?_⟩
      rw [contribute]
      exact ih.1.negation.contribution
  | binary op l r ihl ihr =>
      have parts := (ihl.2 op).append (ihr.2 op)
      have settles := ((settles_pass_and_contribute l).2 op).append
        ((settles_pass_and_contribute r).2 op)
      have several : 2 ≤ ((contribute l op).append (contribute r op)).operands.length := by
        have front := List.length_pos_iff.mpr (ihl.2 op).some'
        have back := List.length_pos_iff.mpr (ihr.2 op).some'
        simp only [Contribution.append, List.length_append]
        omega
      have closed := parts.close rfl several fun same => (settles.unchanged same).2
      rw [pass]
      refine ⟨closed, fun op' => ?_⟩
      rw [contribute]
      by_cases same : op = op'
      · subst same
        rw [if_pos rfl]
        exact parts
      · rw [if_neg same]
        exact closed.contribution

theorem shrinks_applyUpTo (limit : Nat) (e : Expr) :
    (applyUpTo limit e).1.Fits e ∧
      (applyUpTo limit e).1.nodes + (applyUpTo limit e).2.length ≤ e.nodes := by
  induction limit generalizing e with
  | zero => exact ⟨Expr.Fits.refl e, Nat.le_refl _⟩
  | succ limit ih =>
      obtain ⟨fits, fewer⟩ := (shrinks_pass_and_contribute e).1
      rw [applyUpTo]
      cases answer : (pass e).result? with
      | none =>
          rw [answer] at fewer
          exact ⟨Expr.Fits.refl e, fewer⟩
      | some new =>
          rw [answer, Option.getD_some] at fits fewer
          obtain ⟨later, rest⟩ := ih new
          refine ⟨later.trans fits, ?_⟩
          simp only [List.length_append]
          omega

end SwitchingLogic.Law
