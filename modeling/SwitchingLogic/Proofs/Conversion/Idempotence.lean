import Mathlib.Data.List.Forall2
import SwitchingLogic.Proofs.Conversion.Duality
import SwitchingLogic.Proofs.Conversion.Minimal

/-!
# Conversion of a converted expression

Distributing the expression of a list of terms gives back the list, and minimal terms are minimal
among themselves.  So a minimized expression has the terms of which it was made, and converting it
again changes nothing.
-/

namespace SwitchingLogic

namespace Term

/-- Fix the variables of a list of literals in addition to what was fixed before. -/
def restrictAll (t : Term) (ls : List (Variable × Bool)) : Term :=
  ls.foldl (fun t l => t.restrict l.1 l.2) t

theorem fixes_restrictAll (t : Term) (ls : List (Variable × Bool)) (v : Variable) (value : Bool) :
    (t.restrictAll ls).fixes v value = true ↔ t.fixes v value = true ∨ (v, value) ∈ ls := by
  induction ls generalizing t with
  | nil => simp [restrictAll]
  | cons l rest ih =>
      rw [restrictAll, List.foldl_cons, ← restrictAll, ih, fixes_restrict, List.mem_cons,
        Bool.or_eq_true, or_assoc, Bool.and_eq_true, decide_eq_true_eq, beq_iff_eq, Prod.ext_iff,
        eq_comm (a := l.1), eq_comm (a := l.2)]

/-- A term fixes its literals and nothing else. -/
theorem restrictAll_literals (t : Term) : free.restrictAll t.literals = t := by
  refine ext_fixes fun v value => Bool.eq_iff_iff.mpr ?_
  rw [fixes_restrictAll, mem_literals, fixes_free]
  exact or_iff_right Bool.noConfusion

end Term

namespace Conversion

/-- The operands of a product are multiplied in one after another. -/
theorem expand_conj (form : NormalForm) (es : List Expr) (us : List Term) :
    expand form (Expr.conj es) true us = es.foldlM (fun us e => expand form e true us) us := by
  induction es using Expr.join.induct generalizing us with
  | case1 =>
      rw [Expr.conj, Expr.join]
      rfl
  | case2 e =>
      rw [Expr.conj, Expr.join, List.foldlM_cons]
      exact (bind_pure _).symm
  | case3 e f rest all half ihFront ihBack =>
      rw [Expr.conj, Expr.join, expand, if_pos (by decide), ihFront]
      refine (bind_congr ihBack).trans ?_
      rw [← List.foldlM_append, List.take_append_drop]

theorem expand_literal (form : NormalForm) (v : Variable) (value : Bool) (us : List Term) :
    expand form (Expr.literal v value) true us = .ok (us.map (·.restrict v value)) := by
  cases value <;> rfl

theorem expand_toProduct (form : NormalForm) (t : Term) (us : List Term) :
    expand form t.toProduct true us = .ok (us.map (·.restrictAll t.literals)) := by
  rw [Term.toProduct, Term.joined, expand_conj]
  induction t.literals generalizing us with
  | nil => exact congrArg Except.ok (List.map_id us).symm
  | cons l rest ih =>
      rw [List.map_cons, List.foldlM_cons, expand_literal]
      refine (ih _).trans ?_
      rw [List.map_map]
      rfl

/-- The terms of a sum are those of its operands, if they are not too many. -/
theorem expand_disj {form : NormalForm} {es : List Expr} {us : List Term}
    {parts : List (List Term)}
    (each : List.Forall₂ (fun e part => expand form e true us = .ok part) es parts)
    (few : parts.flatten.length ≤ maxTerms) :
    expand form (Expr.disj es) true us = .ok parts.flatten := by
  induction es using Expr.join.induct generalizing parts with
  | case1 =>
      cases each
      rw [Expr.disj, Expr.join]
      rfl
  | case2 e =>
      obtain _ | ⟨expanded, none⟩ := each
      cases none
      rw [Expr.disj, Expr.join, expanded, List.flatten_singleton]
  | @case3 e f rest all half ihFront ihBack =>
      have whole : (parts.take half).flatten ++ (parts.drop half).flatten = parts.flatten := by
        rw [← List.flatten_append, List.take_append_drop]
      have both := congrArg List.length whole
      rw [List.length_append] at both
      have front := ihFront (List.forall₂_take half each) (by omega)
      have back := ihBack (List.forall₂_drop half each) (by omega)
      rw [Expr.disj, Expr.join]
      refine expand_binary_eq_ok_iff.mpr (Or.inr ⟨by decide, _, _, front, back, ?_, whole.symm⟩)
      rwa [whole]

/-- Distributing the expression of a list of terms gives back the list. -/
theorem distribute_assemble (form : NormalForm) {ts : List Term} (few : ts.length ≤ maxTerms) :
    distribute form (assemble form ts) = .ok ts := by
  have whole : (ts.map fun t => [t]).flatten = ts := by
    rw [← List.flatMap_def, List.flatMap_singleton']
  have each : List.Forall₂ (fun e part => expand .sumOfProducts e true [.free] = .ok part)
      (ts.map Term.toProduct) (ts.map fun t => [t]) := by
    rw [List.forall₂_map_left_iff, List.forall₂_map_right_iff, List.forall₂_same]
    intro t _
    rw [expand_toProduct, List.map_singleton, t.restrictAll_literals]
  have products : distribute .sumOfProducts (assemble .sumOfProducts ts) = .ok ts :=
    (expand_disj each (whole.symm ▸ few)).trans (congrArg Except.ok whole)
  cases form with
  | sumOfProducts => exact products
  | productOfSums =>
      rw [← Expr.dual_dual (assemble .sumOfProducts ts), dual_assemble] at products
      obtain ⟨us, clauses, dual⟩ | ⟨_, _, _, failed⟩ :=
        distribute_dual (assemble .productOfSums ts)
      · rw [clauses, ← dual, products]
      · cases failed.symm.trans products

theorem length_expand_le {form : NormalForm} {e : Expr} {positive : Bool} {ts us : List Term}
    (done : expand form e positive ts = .ok us) : us.length ≤ max ts.length maxTerms := by
  induction e generalizing positive ts us with
  | var v =>
      cases done
      rw [List.length_map]
      exact le_max_left _ _
  | const b =>
      cases done
      split
      · exact le_max_left _ _
      · exact Nat.zero_le _
  | not e ih => exact ih done
  | binary op l r ihl ihr =>
      rcases expand_binary_eq_ok_iff.mp done with
        ⟨_, left, doneLeft, doneRight⟩ | ⟨_, left, right, _, _, few, rfl⟩
      · exact (ihr doneRight).trans (max_le (ihl doneLeft) (le_max_right _ _))
      · exact few.trans (le_max_right _ _)

theorem length_distribute_le {form : NormalForm} {e : Expr} {ts : List Term}
    (done : distribute form e = .ok ts) : ts.length ≤ maxTerms := by
  cases form with
  | sumOfProducts => exact length_expand_le done
  | productOfSums =>
      obtain ⟨us, expanded, negated⟩ := Error.bind_eq_ok_iff.mp done
      cases negated
      rw [List.length_map]
      exact length_expand_le expanded

/-- Terms mention no other variables than the expression and the terms at the start. -/
theorem containsAll_vars_of_expand {form : NormalForm} {e : Expr} {positive : Bool}
    {ts us : List Term} {vs : VarSet} (done : expand form e positive ts = .ok us)
    (own : vs.containsAll e.vars = true) (inside : ∀ t ∈ ts, vs.containsAll t.vars = true) :
    ∀ u ∈ us, vs.containsAll u.vars = true := by
  induction e generalizing positive ts us with
  | var v =>
      cases done
      rw [List.forall_mem_map]
      intro t listed
      rw [Term.vars_restrict, VarSet.insert, VarSet.containsAll_union]
      exact ⟨inside t listed, own⟩
  | const b =>
      cases done
      split
      · exact inside
      · intro t none
        cases none
  | not e ih => exact ih done own inside
  | binary op l r ihl ihr =>
      obtain ⟨ownLeft, ownRight⟩ := (VarSet.containsAll_union _ _ _).mp own
      rcases expand_binary_eq_ok_iff.mp done with
        ⟨_, left, doneLeft, doneRight⟩ | ⟨_, left, right, doneLeft, doneRight, _, rfl⟩
      · exact ihr doneRight ownRight (ihl doneLeft ownLeft inside)
      · exact List.forall_mem_append.mpr
          ⟨ihl doneLeft ownLeft inside, ihr doneRight ownRight inside⟩

theorem containsAll_vars_of_distribute {form : NormalForm} {e : Expr} {ts : List Term}
    (done : distribute form e = .ok ts) : ∀ t ∈ ts, e.vars.containsAll t.vars = true := by
  have own {e : Expr} {ts : List Term} (done : distribute .sumOfProducts e = .ok ts) :
      ∀ t ∈ ts, e.vars.containsAll t.vars = true := by
    refine containsAll_vars_of_expand done (VarSet.containsAll_self _) ?_
    rw [List.forall_mem_singleton, VarSet.containsAll_iff]
    intro v member
    obtain ⟨value, fixed⟩ := (Term.contains_vars_iff _ v).mp member
    rw [Term.fixes_free] at fixed
    cases fixed
  cases form with
  | sumOfProducts => exact own done
  | productOfSums =>
      obtain ⟨us, clauses, products⟩ | ⟨_, _, failed, _⟩ := distribute_dual e
      · cases done.symm.trans clauses
        rw [← e.vars_dual]
        exact own products
      · cases failed.symm.trans done

theorem containsAll_vars_assemble (form : NormalForm) {ts : List Term} {vs : VarSet}
    (inside : ∀ t ∈ ts, vs.containsAll t.vars = true) :
    vs.containsAll (assemble form ts).vars = true := by
  have same : (assemble form ts).vars = (assemble .sumOfProducts ts).vars := by
    cases form with
    | sumOfProducts => rfl
    | productOfSums => rw [← dual_assemble, Expr.vars_dual]
  rw [same, VarSet.containsAll_iff]
  intro v member
  obtain ⟨e, product, member⟩ := Expr.exists_of_contains_vars_join member
  obtain ⟨t, listed, rfl⟩ := List.mem_map.mp product
  exact (VarSet.containsAll_iff _ _).mp (inside t listed) v (Term.contains_vars_of_toProduct member)

/-- A minimized expression is converted to itself. -/
theorem convert_assemble {f g : Formula} {form : NormalForm} {ts ms : List Term}
    (small : f.vars.length ≤ TruthTable.maxVariables)
    (distributed : distribute form f.expr = .ok ts) (shortest : IsShortest ts ms)
    (same : g.expr = assemble form ms) :
    ∃ r, convert g form = .ok r ∧ r.minimized = assemble form ms := by
  have few : ms.length ≤ maxTerms := shortest.length_le.trans (length_distribute_le distributed)
  have inside : f.expr.vars.containsAll g.expr.vars = true := by
    rw [same]
    refine containsAll_vars_assemble form fun t listed => ?_
    exact containsAll_vars_of_distribute distributed t ((shortest.mem_iff t).mp listed).mem
  have small' : g.vars.length ≤ TruthTable.maxVariables :=
    (VarSet.length_toList_mono ((VarSet.containsAll_iff _ _).mp inside)).trans small
  have distributed' : distribute form g.expr = .ok ms := by
    rw [same, distribute_assemble form few]
  refine ⟨_, convert_eq_ok_iff.mpr ⟨small', ms, distributed', rfl⟩, ?_⟩
  exact congrArg (assemble form) ((isShortest_clear (start g form ms) form).unique shortest.self)

/-- The terms of a minimized expression are the minimal ones among the distributed terms, each of
them once and in the order of display.  In whatever order terms are absorbed, the same ones are
left, and converting the minimized expression again gives the same expression. -/
theorem convert_minimal {f : Formula} {form : NormalForm} {r : Result}
    (done : convert f form = .ok r) :
    ∃ ts ms, distribute form f.expr = .ok ts ∧ r.distributedTerms = ts.length ∧
      r.minimized = assemble form ms ∧ r.minimizedTerms = ms.length ∧
      distribute form r.minimized = .ok ms ∧ IsShortest ts ms ∧
      (∀ s ∈ ms, ∀ t ∈ ms, s.contains t = true → s = t) ∧
      (∀ given, given.Perm (withoutConflicts ts).eraseDups →
        AbsorbsTo given (absorb given) ∧ ∀ left, AbsorbsTo given left → Term.sort left = ms) ∧
      ∀ g : Formula, g.expr = r.minimized →
        ∃ r', convert g form = .ok r' ∧ r'.minimized = r.minimized := by
  obtain ⟨small, ts, distributed, rfl⟩ := convert_eq_ok_iff.mp done
  have shortest := isShortest_clear (start f form ts) form
  have few := shortest.length_le.trans (length_distribute_le distributed)
  refine ⟨ts, _, distributed, rfl, rfl, rfl, distribute_assemble form few, shortest,
    fun s first t second => shortest.eq_of_contains first second, fun given single => ?_,
    fun g same => convert_assemble small distributed shortest same⟩
  refine ⟨absorbsTo_absorb given, fun left run => ?_⟩
  exact (run.isShortest single).unique shortest

/-- Of the products `A`, `AB`, `A!B` and `B!B` only the first one is left. -/
theorem convert_minimal_absorbed :
    let f : Formula := ⟨"(A+B)(A+!B)", "(A+B)·(A+!B)", .binary .and
      (.binary .or (.var ⟨0⟩) (.var ⟨1⟩)) (.binary .or (.var ⟨0⟩) (.not (.var ⟨1⟩)))⟩
    let a : Term := .literal ⟨0⟩ true
    ∃ r, convert f .sumOfProducts = .ok r ∧ r.distributedTerms = 4 ∧ r.minimized = .var ⟨0⟩ ∧
      (∀ left, AbsorbsTo [a.restrict ⟨1⟩ true, a.restrict ⟨1⟩ false, a] left →
        Term.sort left = [a]) ∧
      ∀ g : Formula, g.expr = .var ⟨0⟩ →
        ∃ r', convert g .sumOfProducts = .ok r' ∧ r'.minimized = .var ⟨0⟩ := by
  intro f a
  obtain ⟨r, done⟩ : ∃ r, convert f .sumOfProducts = .ok r := by
    unfold f
    exact ⟨_, rfl⟩
  obtain ⟨ts, ms, distributed, count, minimized, _, _, shortest, _, absorbed, again⟩ :=
    convert_minimal done
  let b : Term := .literal ⟨1⟩ true
  have products : ts = [a, b.restrict ⟨0⟩ true, a.restrict ⟨1⟩ false, b.restrict ⟨1⟩ false] :=
    Except.ok.inj distributed.symm
  subst products
  have only : ms = [a] := by
    refine shortest.unique ⟨fun t => ⟨fun first => ?_, fun minimal => ?_⟩, by decide⟩
    · cases List.mem_singleton.mp first
      decide
    · exact (by decide : ∀ t ∈ [a, b.restrict ⟨0⟩ true, a.restrict ⟨1⟩ false, b.restrict ⟨1⟩ false],
        IsMinimal _ t → t ∈ [a]) t minimal.mem minimal
  subst only
  have literals : a.literals = [(⟨0⟩, true)] := by decide +kernel
  rw [assemble, List.map_singleton, Expr.disj, Expr.join, Term.toProduct, Term.joined, literals,
    List.map_singleton, Expr.join] at minimized
  rw [minimized] at again
  refine ⟨r, done, count, minimized, (absorbed _ ?_).2, again⟩
  decide

end Conversion

end SwitchingLogic
