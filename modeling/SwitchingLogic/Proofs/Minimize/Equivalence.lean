import SwitchingLogic.Minimize
import SwitchingLogic.Proofs.Implicant.ChartRounds
import SwitchingLogic.Proofs.Implicant.Irredundant
import SwitchingLogic.Proofs.Implicant.Products

/-!
# Minimized expressions

Whatever algorithm chooses the cubes, they cover the minterms of the table, also when the function
is constant; the expression made from them has the value of the formula.  The report has one entry
for each name asked for.
-/

namespace SwitchingLogic

theorem Formula.dependsOn_vars (f : Formula) : LogicFunction.DependsOn f.expr f.vars :=
  f.expr.dependsOn_vars

theorem Formula.nodup_vars (f : Formula) : f.vars.Nodup :=
  f.expr.vars.nodup_toList

theorem Formula.length_vars_le (f : Formula) : f.vars.length ≤ 64 :=
  f.expr.vars.length_toList_le.trans (by decide)

namespace Algorithm

open Implicant

theorem isCover_cover (a : Algorithm) {rows : List Nat} {width : Nat} (fits : width ≤ maxWidth)
    (below : ∀ row ∈ rows, row < 2 ^ width) : IsCover rows width (a.cover rows width).1 := by
  cases a with
  | quineMcCluskey =>
      exact Chart.isCover_select fits below fun row => Chart.exists_mem_select_greedyCover _
  | petrick =>
      exact Chart.isCover_select fits below fun row => Chart.exists_mem_select_petrickCover _
  | espresso => exact isCover_espresso fits below

theorem cover?_eq_some (a : Algorithm) {rows : List Nat} {width : Nat}
    (fits : rows = [] ∨ width ≤ maxWidth) : a.cover? rows width = some (a.cover rows width) := by
  rw [cover?, minterms?_eq_some fits]
  rfl

/-- The choice by expansion and reduction is the cover of this kind, at every width. -/
theorem cover?_espresso (rows : List Nat) (width : Nat) :
    espresso.cover? rows width =
      (espresso? rows width).map fun cubes => (cubes, cubes.length) := by
  by_cases fits : rows = [] ∨ width ≤ maxWidth
  · rw [cover?_eq_some _ fits, espresso?_eq_some fits]
    rfl
  · rw [not_or, Nat.not_le] at fits
    obtain ⟨row, listed⟩ := List.exists_mem_of_ne_nil rows fits.1
    rw [cover?, espresso?, minterms?_eq_none listed fits.2]
    rfl

theorem isCover_cover_minterms (a : Algorithm) (f : Formula)
    (small : f.vars.length ≤ maxWidth) :
    IsCover (TruthTable.tabulate f.expr f.vars).minterms f.vars.length
      (a.cover (TruthTable.tabulate f.expr f.vars).minterms f.vars.length).1 := by
  apply a.isCover_cover small
  intro row minterm
  exact ((TruthTable.mem_rowsWith_tabulate f.expr f.vars).mp minterm).1

theorem coverTable_fst (a : Algorithm) (t : TruthTable) :
    (a.coverTable t).1 = sortForDisplay (if t.isContradiction then []
      else if t.isTautology then [.free t.vars.length]
      else (a.cover t.minterms t.vars.length).1) t.vars := by
  unfold coverTable
  by_cases never : t.isContradiction = true
  · simp [never]
  · by_cases always : t.isTautology = true
    · simp [never, always]
    · simp [never, always]

/-- The cubes for the table of a formula cover its minterms. -/
theorem isCover_coverTable (a : Algorithm) (f : Formula) (small : f.vars.length ≤ maxWidth) :
    IsCover (TruthTable.tabulate f.expr f.vars).minterms f.vars.length
      (a.coverTable (TruthTable.tabulate f.expr f.vars)).1 := by
  have listed (row : Nat) : row ∈ (TruthTable.tabulate f.expr f.vars).minterms ↔
      row < 2 ^ f.vars.length ∧ f.expr.eval (State.ofIndex row f.vars) = true :=
    TruthTable.mem_rowsWith_tabulate f.expr f.vars
  rw [coverTable_fst]
  refine IsCover.perm ?_ (sortForDisplay_perm _ _)
  by_cases never : (TruthTable.tabulate f.expr f.vars).isContradiction = true
  · rw [if_pos never]
    rw [TruthTable.isContradiction_iff f.dependsOn_vars f.nodup_vars f.length_vars_le] at never
    refine ⟨fun a none => (List.not_mem_nil none).elim, fun row minterm => ?_⟩
    exact Bool.noConfusion ((never _).symm.trans ((listed row).mp minterm).2)
  · rw [if_neg never]
    by_cases always : (TruthTable.tabulate f.expr f.vars).isTautology = true
    · rw [if_pos always]
      rw [TruthTable.isTautology_iff f.dependsOn_vars f.nodup_vars f.length_vars_le] at always
      refine ⟨fun a only => ?_, fun row _ => ⟨_, List.mem_singleton.mpr rfl, covers_free row _⟩⟩
      cases List.mem_singleton.mp only
      exact ⟨wellFormed_free small, rfl, fun row low _ => (listed row).mpr ⟨low, always _⟩⟩
    · rw [if_neg always]
      exact a.isCover_cover_minterms f small

theorem read_eq_error {name : String} {e : Error} (failed : read name = .error e) :
    e = .unknownAlgorithm name := by
  unfold read at failed
  split at failed <;> cases failed
  rfl

end Algorithm

namespace Minimize

theorem eval_run (f : Formula) (small : f.vars.length ≤ TruthTable.maxVariables)
    (a : Algorithm) (s : State) :
    (run f (TruthTable.tabulate f.expr f.vars) a).expr.eval s = f.expr.eval s := by
  have fits : f.vars.length ≤ Implicant.maxWidth := small.trans (by decide)
  exact Implicant.eval_sumOfProducts f.dependsOn_vars f.nodup_vars fits
    (a.isCover_coverTable f fits) s

/-- The algorithms found and the failures together answer each name once. -/
theorem perm_map_read (names : List String) :
    ((names.filterMap algorithm?).map Except.ok ++
      (names.filterMap failure?).map fun failure : String × Error => Except.error failure.2).Perm
        (names.map Algorithm.read) := by
  induction names with
  | nil => exact List.Perm.nil
  | cons name rest ih =>
      rw [List.filterMap_cons, List.filterMap_cons, algorithm?, failure?, List.map_cons]
      cases answer : Algorithm.read name with
      | ok a => exact ih.cons _
      | error e => exact List.perm_middle.trans (ih.cons _)

theorem filterMap_failure? (names : List String) :
    names.filterMap failure? =
      (names.filter fun name => !(Algorithm.read name).isOk).map
        fun name => (name, .unknownAlgorithm name) := by
  induction names with
  | nil => rfl
  | cons name rest ih =>
      rw [List.filterMap_cons, List.filter_cons, failure?]
      cases answer : Algorithm.read name with
      | ok a => exact ih
      | error e =>
          cases Algorithm.read_eq_error answer
          exact congrArg _ ih

/-- Up to ten variables there is a report.  Its entries answer the names one by one, the failures
in the order of the names, and each result has the value of the formula in every state. -/
theorem exists_report_eval_eq (f : Formula) (names : List String)
    (small : f.vars.length ≤ TruthTable.maxVariables) :
    ∃ r, report f names = .ok r ∧
      (r.results.map (fun result : Result => Except.ok result.algorithm) ++
        r.failures.map fun failure : String × Error => Except.error failure.2).Perm
          (names.map Algorithm.read) ∧
      r.failures = (names.filter fun name => !(Algorithm.read name).isOk).map
        (fun name => (name, .unknownAlgorithm name)) ∧
      ∀ result ∈ r.results, ∀ s, result.expr.eval s = f.expr.eval s := by
  have table := (TruthTable.build_eq_ok_iff f.expr f.vars).mpr ⟨small, rfl⟩
  refine ⟨_, Error.bind_eq_ok_iff.mpr ⟨_, table, rfl⟩, ?_, filterMap_failure? names, ?_⟩
  · refine List.Perm.trans ?_ (perm_map_read names)
    refine List.Perm.append_right _ ?_
    refine ((List.mergeSort_perm _ _).map _).trans ?_
    rw [List.map_map]
    exact List.Perm.refl _
  · intro result member s
    obtain ⟨a, _, rfl⟩ := List.mem_map.mp ((List.mergeSort_perm _ _).mem_iff.mp member)
    exact eval_run f small a s

theorem exists_report_eval_eq_joined :
    let f : Formula := ⟨"AB+A!B", "A·B+A·!B", .binary .or
      (.binary .and (.var ⟨0⟩) (.var ⟨1⟩)) (.binary .and (.var ⟨0⟩) (.not (.var ⟨1⟩)))⟩
    f.vars.length ≤ TruthTable.maxVariables ∧
      ∃ r, report f ["tabular", "petrick", "qm"] = .ok r ∧
        r.failures = [("tabular", .unknownAlgorithm "tabular")] ∧
        ∀ result ∈ r.results, ∀ s, result.expr.eval s = s.isActive ⟨0⟩ := by
  intro f
  have small : f.vars.length ≤ TruthTable.maxVariables := by decide
  obtain ⟨r, done, _, failures, values⟩ :=
    exists_report_eval_eq f ["tabular", "petrick", "qm"] small
  refine ⟨small, r, done, failures.trans (by decide), fun result member s => ?_⟩
  rw [values result member s]
  exact (by decide : ∀ a b, (a && b || a && !b) = a) _ _

end Minimize

end SwitchingLogic
