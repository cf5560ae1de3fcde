import SwitchingLogic.Conversion
import SwitchingLogic.Proofs.Error.Results
import SwitchingLogic.Proofs.Term.Values

/-!
# Values of distributed terms

Expanding an expression, or its negation, narrows the terms gathered so far to the states in which
the expression has the value asked for.  Read in a normal form, a list of terms has one value in
the states that some term selects and the other value elsewhere.
-/

namespace SwitchingLogic

namespace Connective

/-- For the value that the connective takes only when both of its operands do. -/
theorem eval_eq_iff_and {op : Connective} {value : Bool} (both : ((op == .and) == value) = true)
    (a b : Bool) : op.eval a b = value ↔ a = value ∧ b = value := by
  cases op <;> cases value <;> cases a <;> cases b <;> simp_all [eval]

theorem eval_eq_iff_or {op : Connective} {value : Bool} (one : ¬ ((op == .and) == value) = true)
    (a b : Bool) : op.eval a b = value ↔ a = value ∨ b = value := by
  cases op <;> cases value <;> cases a <;> cases b <;> simp_all [eval]

end Connective

/-- The value of a normal form in the states that one of its terms selects. -/
def NormalForm.selected : NormalForm → Bool
  | .sumOfProducts => true
  | .productOfSums => false

/-- The state makes the product true, or the clause false. -/
def NormalForm.selects (form : NormalForm) (t : Term) (s : State) : Bool :=
  match form with
  | .sumOfProducts => t.containsState s
  | .productOfSums => t.negateAll.containsState s

namespace Conversion

def Selected (form : NormalForm) (ts : List Term) (s : State) : Prop :=
  ∃ t ∈ ts, form.selects t s = true

theorem eval_assemble_iff (form : NormalForm) (ts : List Term) (s : State) :
    (assemble form ts).eval s = form.selected ↔ Selected form ts s := by
  cases form with
  | sumOfProducts =>
      rw [assemble, NormalForm.selected, Expr.eval_disj, List.any_map, List.any_eq_true]
      simp only [Function.comp_apply, Term.eval_toProduct]
      rfl
  | productOfSums =>
      rw [assemble, NormalForm.selected, Expr.eval_conj, List.all_map, ← Bool.not_eq_true,
        List.all_eq_true]
      simp only [Function.comp_apply, Term.eval_toSum, not_forall, exists_prop,
        Bool.not_eq_true, Bool.not_eq_false']
      rfl

theorem eval_assemble_eq {form : NormalForm} {ts : List Term} {s : State} {value : Bool}
    (same : Selected form ts s ↔ value = form.selected) :
    (assemble form ts).eval s = value := by
  rw [← eval_assemble_iff] at same
  generalize form.selected = selected at same
  cases value <;> cases selected <;> simp_all

theorem selected_append (form : NormalForm) (ts us : List Term) (s : State) :
    Selected form (ts ++ us) s ↔ Selected form ts s ∨ Selected form us s := by
  simp only [Selected, List.mem_append, or_and_right, exists_or]

/-- The operands are multiplied, or else the terms of both are put together if they are not too
many. -/
theorem expand_binary_eq_ok_iff {form : NormalForm} {op : Connective} {l r : Expr}
    {positive : Bool} {ts us : List Term} :
    expand form (.binary op l r) positive ts = .ok us ↔
      ((op == .and) == positive) = true ∧
          (∃ left, expand form l positive ts = .ok left ∧ expand form r positive left = .ok us) ∨
        ¬ ((op == .and) == positive) = true ∧
          ∃ left right, expand form l positive ts = .ok left ∧
            expand form r positive ts = .ok right ∧ (left ++ right).length ≤ maxTerms ∧
            us = left ++ right := by
  rw [expand]
  split
  · rename_i both
    rw [or_iff_left fun other => other.1 both, and_iff_right both]
    exact Error.bind_eq_ok_iff
  · rename_i one
    have bounded (all : List Term) :
        (if all.length > maxTerms then throw (.tooManyTerms form maxTerms) else pure all) =
            (.ok us : Except Error (List Term)) ↔ all.length ≤ maxTerms ∧ us = all := by
      split
      · rename_i many
        exact iff_of_false nofun fun few => Nat.not_le_of_gt many few.1
      · rename_i few
        rw [Error.pure_eq_ok_iff, eq_comm]
        exact (and_iff_right (Nat.le_of_not_gt few)).symm
    rw [or_iff_right fun other => one other.1, and_iff_right one]
    simp only [Error.bind_eq_ok_iff, bounded, exists_and_left]

/-- The terms that come from an expression hold in the states of the terms at the start in which
the expression has the value asked for. -/
theorem selected_expand {form : NormalForm} {e : Expr} {positive : Bool} {ts us : List Term}
    (done : expand form e positive ts = .ok us) (s : State) :
    Selected .sumOfProducts us s ↔ Selected .sumOfProducts ts s ∧ e.eval s = positive := by
  induction e generalizing positive ts us with
  | var v =>
      cases done
      simp only [Selected, NormalForm.selects, List.mem_map, exists_exists_and_eq_and,
        Term.containsState_restrict, Bool.and_eq_true, beq_iff_eq, ← and_assoc, exists_and_right]
      rfl
  | const b =>
      cases done
      rw [Expr.eval]
      by_cases same : b = positive
      · rw [if_pos same, and_iff_left same]
      · rw [if_neg same]
        refine iff_of_false ?_ fun both => same both.2
        rintro ⟨t, none, _⟩
        cases none
  | not e ih =>
      rw [expand] at done
      rw [ih done, Expr.eval, Bool.eq_not, Bool.not_eq]
  | binary op l r ihl ihr =>
      rw [Expr.eval]
      rcases expand_binary_eq_ok_iff.mp done with
        ⟨both, left, doneLeft, doneRight⟩ | ⟨one, left, right, doneLeft, doneRight, _, rfl⟩
      · rw [ihr doneRight, ihl doneLeft, Connective.eval_eq_iff_and both, and_assoc]
      · rw [Connective.eval_eq_iff_or one, and_or_left, ← ihl doneLeft, ← ihr doneRight,
          ← selected_append]

theorem selected_distribute {form : NormalForm} {e : Expr} {ts : List Term}
    (done : distribute form e = .ok ts) (s : State) :
    Selected form ts s ↔ e.eval s = form.selected := by
  have free : Selected .sumOfProducts [.free] s :=
    ⟨_, List.mem_singleton.mpr rfl, Term.containsState_free s⟩
  cases form with
  | sumOfProducts =>
      rw [selected_expand done, and_iff_right free]
      rfl
  | productOfSums =>
      obtain ⟨us, expanded, negated⟩ := Error.bind_eq_ok_iff.mp done
      cases negated
      rw [NormalForm.selected, ← and_iff_right free (b := e.eval s = false),
        ← selected_expand expanded]
      simp only [Selected, List.mem_map, exists_exists_and_eq_and]
      rfl

end Conversion

end SwitchingLogic
