import SwitchingLogic.Proofs.Minimize.Canonical
import SwitchingLogic.Proofs.Term.Display

/-!
# The same cover by two procedures

The two procedures on charts choose the same cubes in different orders.  Cubes are displayed in the
order of their terms, which leaves no choice, so that both procedures give the same result.
-/

namespace SwitchingLogic

open Implicant

variable {vs : List Variable} {cubes cubes' : List Implicant}

namespace Implicant

/-- The same cubes are displayed in the same order. -/
theorem sortForDisplay_eq_of_perm (ordered : State.IsOrdered vs)
    (stands : ∀ a ∈ cubes, a.Over vs) (same : cubes'.Perm cubes) :
    sortForDisplay cubes' vs = sortForDisplay cubes vs :=
  sortForDisplay_eq_of_terms
    (fun a first b second => (stands a first).eq_of_toTerm_eq (stands b second) ordered.nodup) same

end Implicant

namespace Algorithm

theorem cover_petrick_perm (rows : List Nat) (width : Nat) :
    (petrick.cover rows width).1.Perm (quineMcCluskey.cover rows width).1 :=
  (Chart.ofRows rows width).inStep.same.filterMap _

theorem chosen_petrick_perm (t : TruthTable) :
    (petrick.chosen t).Perm (quineMcCluskey.chosen t) := by
  rw [chosen, chosen]
  split
  · exact List.Perm.refl _
  · split
    · exact List.Perm.refl _
    · exact cover_petrick_perm _ _

end Algorithm

namespace Minimize

theorem run_petrick_implicants (p : Formula) (small : p.vars.length ≤ maxWidth) :
    (run p p.table .petrick).implicants = (run p p.table .quineMcCluskey).implicants := by
  rw [run_implicants, run_implicants]
  exact sortForDisplay_eq_of_perm p.isOrdered_vars
    (fun c => p.over_of_mem_chosen small .quineMcCluskey)
    (Algorithm.chosen_petrick_perm p.table)

theorem run_petrick_expr (p : Formula) (small : p.vars.length ≤ maxWidth) :
    (run p p.table .petrick).expr = (run p p.table .quineMcCluskey).expr :=
  congrArg (sumOfProducts · p.vars) (run_petrick_implicants p small)

/-- On every chart the two procedures run in step.  In every report the results of one have the
same cubes, in the same order, and the same expression as those of the other. -/
theorem petrick_agrees :
    (∀ c : Chart, c.InStep) ∧
      ∀ (p : Formula) (names : List String), p.vars.length ≤ TruthTable.maxVariables →
        ∃ r, report p names = .ok r ∧
          (r.results.map Result.algorithm).Perm (names.filterMap algorithm?) ∧
          ∀ x ∈ r.results, ∀ y ∈ r.results, x.algorithm = .quineMcCluskey →
            y.algorithm = .petrick → x.implicants = y.implicants ∧ x.expr = y.expr := by
  refine ⟨Chart.inStep, fun p names small => ?_⟩
  have fits : p.vars.length ≤ maxWidth := small.trans (by decide)
  obtain ⟨r, done, runs⟩ := exists_report_perm p small names
  refine ⟨r, done, (runs.map _).trans ?_, fun x member y member' first second => ?_⟩
  · rw [List.map_map]
    exact List.Perm.of_eq (List.map_id _)
  · obtain ⟨a, _, rfl⟩ := List.mem_map.mp (runs.mem_iff.mp member)
    obtain ⟨b, _, rfl⟩ := List.mem_map.mp (runs.mem_iff.mp member')
    have left : a = .quineMcCluskey := first
    have right : b = .petrick := second
    rw [left, right]
    exact ⟨(run_petrick_implicants p fits).symm, (run_petrick_expr p fits).symm⟩

/-- A chart with a cube listed twice and a row in no cube, and a formula in which both procedures
have to choose. -/
theorem petrick_agrees_ring :
    let c : Chart := Chart.ofPrimes [⟨0, 2, 2⟩, ⟨1, 1, 2⟩, ⟨0, 2, 2⟩] [2, 0, 1]
    let p : Formula := ⟨"A!B+B!C+C!A", "A·!B+B·!C+C·!A", .binary .or (.binary .or
      (.binary .and (.var ⟨0⟩) (.not (.var ⟨1⟩))) (.binary .and (.var ⟨1⟩) (.not (.var ⟨2⟩))))
        (.binary .and (.var ⟨2⟩) (.not (.var ⟨0⟩)))⟩
    c.InStep ∧ p.vars.length ≤ TruthTable.maxVariables ∧
      ∃ r, report p ["qm", "petrick"] = .ok r ∧
        (r.results.map Result.algorithm).Perm [.quineMcCluskey, .petrick] ∧
        ∀ x ∈ r.results, ∀ y ∈ r.results, x.algorithm = .quineMcCluskey →
          y.algorithm = .petrick → x.implicants = y.implicants ∧ x.expr = y.expr := by
  intro c p
  have small : p.vars.length ≤ TruthTable.maxVariables := by decide
  obtain ⟨r, done, algorithms, same⟩ := petrick_agrees.2 p ["qm", "petrick"] small
  have both : ["qm", "petrick"].filterMap algorithm? = [.quineMcCluskey, .petrick] := by
    decide +kernel
  rw [both] at algorithms
  exact ⟨petrick_agrees.1 c, small, r, done, algorithms, same⟩

end Minimize

end SwitchingLogic
