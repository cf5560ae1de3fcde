import SwitchingLogic.Proofs.Conversion.Outcome
import SwitchingLogic.Proofs.VarSet.Members

/-!
# Duality of the normal forms

Distributing the negation of an expression and distributing its dual give opposite terms, one by
one and in the same order.  The clauses of a product of sums are the opposites of the terms of the
negation, so they are the products of the dual, and everything that is done to either list of terms
is done to both.
-/

namespace SwitchingLogic

theorem Connective.identity_dual (op : Connective) : op.dual.identity = !op.identity := by
  cases op <;> rfl

@[simp]
theorem Connective.dual_dual (op : Connective) : op.dual.dual = op := by
  cases op <;> rfl

namespace Expr

theorem dual_literal (v : Variable) (value : Bool) : (literal v value).dual = literal v value := by
  cases value <;> rfl

@[simp]
theorem dual_dual (e : Expr) : e.dual.dual = e := by
  induction e with
  | var v => rfl
  | const b => rw [dual, dual, Bool.not_not]
  | not e ih => rw [dual, dual, ih]
  | binary op l r ihl ihr => rw [dual, dual, op.dual_dual, ihl, ihr]

theorem vars_dual (e : Expr) : e.dual.vars = e.vars := by
  induction e with
  | var v => rfl
  | const b => rfl
  | not e ih => exact ih
  | binary op l r ihl ihr => rw [dual, vars, vars, ihl, ihr]

/-- Joining goes by the number of operands only. -/
theorem dual_join (op : Connective) (es : List Expr) :
    (join op es).dual = join op.dual (es.map dual) := by
  induction es using join.induct with
  | case1 => rw [join, dual, List.map_nil, join, op.identity_dual]
  | case2 e => rw [join, List.map_singleton, join]
  | case3 e f rest all half ihFront ihBack =>
      rw [join, dual, ihFront, ihBack, List.map_take, List.map_drop, List.map_cons, List.map_cons,
        join]
      simp only [List.length_cons, List.length_map, all, half]

end Expr

theorem Term.dual_toProduct (t : Term) : t.toProduct.dual = t.toSum := by
  rw [toProduct, toSum, joined, joined, Expr.dual_join, List.map_map]
  refine congrArg _ (List.map_congr_left fun entry _ => ?_)
  exact Expr.dual_literal entry.1 entry.2

theorem Term.negateAll_restrict (t : Term) (v : Variable) (value : Bool) :
    (t.restrict v value).negateAll = t.negateAll.restrict v !value := by
  cases value <;> rfl

namespace Conversion

theorem dual_assemble (ts : List Term) :
    (assemble .sumOfProducts ts).dual = assemble .productOfSums ts := by
  rw [assemble, assemble, Expr.dual_join, List.map_map]
  exact congrArg _ (List.map_congr_left fun t _ => t.dual_toProduct)

/-- Both expansions have opposite terms, or neither has any because there would be too many. -/
inductive Opposed : Except Error (List Term) → Except Error (List Term) → Prop where
  | terms (ts : List Term) : Opposed (.ok ts) (.ok (ts.map Term.negateAll))
  | failed (e e' : Error) : Opposed (.error e) (.error e')

theorem Opposed.bind {x x' : Except Error (List Term)} (opposed : Opposed x x')
    {next next' : List Term → Except Error (List Term)}
    (later : ∀ ts, Opposed (next ts) (next' (ts.map Term.negateAll))) :
    Opposed (x >>= next) (x' >>= next') := by
  cases opposed with
  | terms ts => exact later ts
  | failed e e' => exact .failed e e'

/-- The two forms play no part but in the error. -/
theorem opposed_expand (form form' : NormalForm) (e : Expr) (positive : Bool) (ts : List Term) :
    Opposed (expand form e positive ts)
      (expand form' e.dual (!positive) (ts.map Term.negateAll)) := by
  induction e generalizing positive ts with
  | var v =>
      have same : (ts.map Term.negateAll).map (·.restrict v !positive) =
          (ts.map (·.restrict v positive)).map Term.negateAll := by
        simp only [List.map_map, Function.comp_def, Term.negateAll_restrict]
      rw [Expr.dual, expand, expand, same]
      exact .terms _
  | const b =>
      simp only [Expr.dual, expand, Bool.not_inj_iff]
      split
      · exact .terms ts
      · exact .terms []
  | not e ih => exact ih (!positive) ts
  | binary op l r ihl ihr =>
      have swapped : ((op.dual == .and) == !positive) = ((op == .and) == positive) := by
        cases op <;> cases positive <;> rfl
      rw [Expr.dual, expand, expand, swapped]
      split
      · exact (ihl positive ts).bind fun us => ihr positive us
      · refine (ihl positive ts).bind fun us => (ihr positive ts).bind fun vs => ?_
        dsimp only
        rw [← List.map_append, List.length_map]
        split
        · exact .failed _ _
        · exact .terms _

/-- The clauses of an expression are the products of its dual. -/
theorem distribute_dual (e : Expr) :
    (∃ ts, distribute .productOfSums e = .ok ts ∧ distribute .sumOfProducts e.dual = .ok ts) ∨
      ∃ x x', distribute .productOfSums e = .error x ∧
        distribute .sumOfProducts e.dual = .error x' := by
  have opposed : Opposed (expand .productOfSums e false [.free])
      (expand .sumOfProducts e.dual true [.free]) := opposed_expand _ _ e false [.free]
  rw [distribute, distribute]
  generalize expand .productOfSums e false [.free] = clauses at opposed ⊢
  generalize expand .sumOfProducts e.dual true [.free] = products at opposed ⊢
  cases opposed with
  | terms ts => exact Or.inl ⟨_, rfl, rfl⟩
  | failed x x' => exact Or.inr ⟨x, x', rfl, rfl⟩

def Step.dual (step : Step) : Step := ⟨step.action, step.expr.dual⟩

/-- The clauses of the one list are the products of the other, and apart from the canonical forms
the steps show dual expressions. -/
structure Progress.IsDual (clauses products : Progress) : Prop where
  terms : clauses.terms = products.terms
  steps : ∃ canonical canonical' rest, products.steps = canonical :: rest ∧
    clauses.steps = canonical' :: rest.map Step.dual

theorem Progress.IsDual.remove {clauses products : Progress} (dual : clauses.IsDual products)
    (action : Nat → Action) (remove : List Term → List Term) :
    (clauses.remove .productOfSums action remove).IsDual
      (products.remove .sumOfProducts action remove) := by
  obtain ⟨ts, steps⟩ := clauses
  obtain ⟨us, steps'⟩ := products
  obtain ⟨rfl, canonical, canonical', rest, rfl, rfl⟩ := dual
  unfold Progress.remove
  dsimp only
  split
  · refine ⟨rfl, canonical, canonical', _, List.cons_append, ?_⟩
    rw [List.map_append, List.map_singleton, Step.dual, dual_assemble, List.cons_append]
  · exact ⟨rfl, canonical, canonical', rest, rfl, rfl⟩

theorem Progress.IsDual.clear {clauses products : Progress} (dual : clauses.IsDual products) :
    (clauses.clear .productOfSums).IsDual (products.clear .sumOfProducts) :=
  ((dual.remove .removedConflicts withoutConflicts).remove .removedRepetitions
    List.eraseDups).remove .removedAbsorbed withoutAbsorbed

/-- A product of sums is dual to a sum of products: in its shortest form, in the numbers of terms,
and in every step after the canonical form. -/
structure Result.IsDual (pos sop : Result) : Prop where
  minimized : pos.minimized = sop.minimized.dual
  distributedTerms : pos.distributedTerms = sop.distributedTerms
  minimizedTerms : pos.minimizedTerms = sop.minimizedTerms
  steps : pos.steps.tail = sop.steps.tail.map Step.dual

theorem isDual_finish (f g : Formula) (ts : List Term) :
    (finish f .productOfSums ts).IsDual (finish g .sumOfProducts ts) := by
  have started : (start f .productOfSums ts).IsDual (start g .sumOfProducts ts) := by
    have distributed : (⟨.distributed ts.length, assemble .productOfSums ts⟩ : Step) =
        Step.dual ⟨.distributed ts.length, assemble .sumOfProducts ts⟩ := by
      rw [Step.dual, dual_assemble]
    exact ⟨rfl, _, _, [_], rfl, congrArg (fun step => [_, step]) distributed⟩
  obtain ⟨terms, canonical, canonical', rest, products, clauses⟩ := started.clear
  constructor
  · simp only [finish]
    rw [terms, dual_assemble]
  · rfl
  · simp only [finish]
    rw [terms]
  · simp only [finish]
    rw [products, clauses, List.tail_cons, List.tail_cons]

/-- A formula has a product of sums exactly if the dual expression has a sum of products, and the
two are dual.  Otherwise there are too many variables for a truth table, or else too many terms in
both. -/
theorem convert_dual (f : Formula) :
    match convert f .productOfSums, convert (.ofExpr f.expr.dual) .sumOfProducts with
    | .ok pos, .ok sop => pos.IsDual sop
    | .error x, .error x' =>
        TruthTable.maxVariables < f.vars.length ∧ x = x' ∨
          f.vars.length ≤ TruthTable.maxVariables ∧ x = .tooManyTerms .productOfSums maxTerms ∧
            x' = .tooManyTerms .sumOfProducts maxTerms
    | _, _ => False := by
  have vars : (Formula.ofExpr f.expr.dual).vars = f.vars := congrArg VarSet.toList f.expr.vars_dual
  by_cases small : f.vars.length ≤ TruthTable.maxVariables
  · obtain ⟨ts, clauses, products⟩ | ⟨x, x', clauses, products⟩ := distribute_dual f.expr
    · rw [convert_eq_ok_iff.mpr ⟨small, ts, clauses, rfl⟩,
        convert_eq_ok_iff.mpr ⟨vars ▸ small, ts, products, rfl⟩]
      exact isDual_finish f _ ts
    · rw [convert_eq_error_iff.mpr (Or.inr ⟨small, clauses⟩),
        convert_eq_error_iff.mpr (Or.inr ⟨vars ▸ small, products⟩)]
      exact Or.inr ⟨small, distribute_eq_error clauses, distribute_eq_error products⟩
  · have large := Nat.lt_of_not_le small
    rw [convert_eq_error_iff.mpr (Or.inl ⟨large, rfl⟩),
      convert_eq_error_iff.mpr (Or.inl ⟨vars ▸ large, rfl⟩), vars]
    exact Or.inl ⟨large, rfl⟩

end Conversion

end SwitchingLogic
