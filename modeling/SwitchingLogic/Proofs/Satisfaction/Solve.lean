import SwitchingLogic.Proofs.Error.Results
import SwitchingLogic.Proofs.Satisfaction.Search
import SwitchingLogic.Proofs.State.Assignment
import SwitchingLogic.Satisfaction.Solve

/-!
# Solving

Both complete searches report the list of all solutions, or its beginning, each from its own end.
The bound on the number of solutions cuts the report only; whether the problem is satisfiable does
not depend on it.
-/

namespace SwitchingLogic.Satisfaction

/-- What is reported of the list of all solutions: the first one unless all are wanted, and not
more than the bound allows. -/
def Options.report (o : Options) (all : List State) : List State :=
  o.limit (if o.findAll then all else all.take 1)

/-- The outcome reports a list of solutions over the sorted variables of the problem, as far as the
settings ask for it, and tells whether there are any at all.  A solution is reported as an
assignment of all variables, from which it can be made again. -/
structure Result.Reports (f : Formula) (o : Options) (all : List State) (r : Result) : Prop where
  method_eq : r.method = o.method
  vars_eq : r.vars = (Problem.mk f.expr o.constraints).vars
  sorted : r.vars.Pairwise fun v w => v.index < w.index
  mem_vars : ∀ v, v ∈ r.vars ↔
    f.expr.vars.contains v = true ∨ ∃ c ∈ o.constraints, v ∈ c.listed
  solutions_eq : r.solutions = (o.report all).map fun s => s.assignment r.vars
  assignment : ∀ s ∈ all, (s.assignment r.vars).map Prod.fst = r.vars ∧
    State.ofAssignment (s.assignment r.vars) = s
  satisfiable_iff : r.satisfiable = true ↔
    ∃ s, f.expr.eval s = true ∧ ∀ c ∈ o.constraints, c.eval s = true

def conclude (f : Formula) (o : Options) (method : Method) : Result :=
  let p : Problem := ⟨f.expr, o.constraints⟩
  let solutions := ((found p o method).1.filter p.isSolution).map fun s => s.assignment p.vars
  ⟨!solutions.isEmpty, o.limit solutions, method, (found p o method).2, p.vars⟩

/-- A search that is made at all leads to a result. -/
theorem solve_eq_ok (f : Formula) {o : Options} {method : Method}
    (resolved : o.method.resolve (Problem.mk f.expr o.constraints).vars.length = .ok method) :
    solve f o = .ok (conclude f o method) :=
  Error.bind_eq_ok_iff.mpr ⟨method, resolved, rfl⟩

theorem Options.limit_map {α β : Type} (o : Options) (g : α → β) (l : List α) :
    o.limit (l.map g) = (o.limit l).map g := by
  rw [limit, limit]
  split
  · exact (List.map_take ..).symm
  · rfl

theorem Options.mem_of_mem_limit {α : Type} {o : Options} {l : List α} {a : α}
    (listed : a ∈ o.limit l) : a ∈ l := by
  rw [limit] at listed
  split at listed
  · exact List.mem_of_mem_take listed
  · exact listed

theorem map_fst_assignment_vars (p : Problem) (s : State) :
    (s.assignment p.vars).map Prod.fst = p.vars := by
  rw [State.map_fst_assignment, Problem.vars, VarSet.ofList_toList]

/-- The values of the variables decide whether a state is a solution. -/
theorem isSolution_ofAssignment (p : Problem) (s : State) :
    p.isSolution (State.ofAssignment (s.assignment p.vars)) = p.isSolution s := by
  apply Problem.isSolution_congr
  intro v listed
  rw [State.isActive_ofAssignment_assignment, decide_eq_true listed, Bool.true_and]

/-- Whatever search is made, an assignment that it lists gives values to all variables of the
problem, and these solve it. -/
theorem solves_of_mem_solutions {f : Formula} {o : Options} {method : Method} {a : Assignment}
    (listed : a ∈ (conclude f o method).solutions) :
    a.map Prod.fst = (conclude f o method).vars ∧
      f.expr.eval (State.ofAssignment a) = true ∧
        ∀ c ∈ o.constraints, c.eval (State.ofAssignment a) = true := by
  obtain ⟨s, kept, rfl⟩ := List.mem_map.mp (Options.mem_of_mem_limit listed)
  have solved := (isSolution_ofAssignment _ s).trans (List.mem_filter.mp kept).2
  exact ⟨map_fst_assignment_vars _ s, Problem.isSolution_iff.mp solved⟩

/-- A problem that some state solves has a solution over its own variables. -/
theorem exists_mem_iff {p : Problem} {all : List State} (enumerates : p.Enumerates all) :
    (∃ s, s ∈ all) ↔ ∃ s, p.expr.eval s = true ∧ ∀ c ∈ p.constraints, c.eval s = true := by
  constructor
  · rintro ⟨s, listed⟩
    exact ⟨s, ((enumerates.mem_iff s).mp listed).2⟩
  · rintro ⟨s, solution⟩
    have row := s.toIndex_lt p.length_vars_le
    refine ⟨State.ofIndex (s.toIndex p.vars) p.vars, (enumerates.mem_iff _).mpr ⟨?_, ?_⟩⟩
    · exact (State.exists_ofIndex_eq_iff p.nodup_vars p.length_vars_le _).mp ⟨_, row, rfl⟩
    · rw [← Problem.isSolution_iff] at solution ⊢
      rw [← solution]
      apply Problem.isSolution_congr
      intro v listed
      exact s.isActive_ofIndex_toIndex p.nodup_vars p.length_vars_le listed

theorem mem_of_mem_first {o : Options} {all : List State} {s : State}
    (listed : s ∈ if o.findAll then all else all.take 1) : s ∈ all := by
  split at listed
  · exact listed
  · exact List.mem_of_mem_take listed

theorem exists_mem_first_iff {o : Options} {all : List State} :
    (∃ s, s ∈ if o.findAll then all else all.take 1) ↔ ∃ s, s ∈ all := by
  constructor
  · rintro ⟨s, listed⟩
    exact ⟨s, mem_of_mem_first listed⟩
  · rintro ⟨s, listed⟩
    split
    · exact ⟨s, listed⟩
    · obtain ⟨first, rest, rfl⟩ := List.exists_cons_of_ne_nil (List.ne_nil_of_mem listed)
      exact ⟨first, List.mem_cons_self⟩

/-- A search that finds the solutions in some order reports them in this order. -/
theorem exists_reports_of_found {f : Formula} {o : Options} {all ordered : List State}
    (enumerates : Problem.Enumerates ⟨f.expr, o.constraints⟩ all)
    (same : ∀ s, s ∈ ordered ↔ s ∈ all)
    (resolved : o.method.resolve (Problem.mk f.expr o.constraints).vars.length = .ok o.method)
    (searched : (found ⟨f.expr, o.constraints⟩ o o.method).1 =
      if o.findAll then ordered else ordered.take 1) :
    ∃ r, solve f o = .ok r ∧ r.Reports f o ordered := by
  have kept : (found ⟨f.expr, o.constraints⟩ o o.method).1.filter
      (Problem.mk f.expr o.constraints).isSolution =
        if o.findAll then ordered else ordered.take 1 := by
    rw [searched, List.filter_eq_self]
    intro s listed
    have solved := (enumerates.mem_iff s).mp ((same s).mp (mem_of_mem_first listed))
    exact Problem.isSolution_iff.mpr solved.2
  refine ⟨_, solve_eq_ok f resolved, rfl, rfl, VarSet.pairwise_toList _,
    fun v => Problem.mem_vars, ?_, fun s listed => ⟨map_fst_assignment_vars _ s, ?_⟩, ?_⟩
  · rw [conclude, kept]
    exact o.limit_map _ _
  · exact State.ofAssignment_assignment ((enumerates.mem_iff s).mp ((same s).mp listed)).1
  · rw [conclude, kept, List.isEmpty_map, Bool.not_eq_true', List.isEmpty_eq_false_iff_exists_mem,
      exists_mem_first_iff, exists_congr same, exists_mem_iff enumerates]

/-- Up to ten variables both complete searches have a result.  One and the same list holds the
solutions from the last row to the first; branching reports from it, and the search by rows from
its reverse. -/
theorem exists_solve_eq (f : Formula) (cs : List Constraint)
    (small : (Problem.mk f.expr cs).vars.length ≤ TruthTable.maxVariables) :
    ∃ all, Problem.Enumerates ⟨f.expr, cs⟩ all ∧ ∀ o : Options, o.constraints = cs →
      (o.method = .branching → ∃ r, solve f o = .ok r ∧ r.Reports f o all) ∧
      (o.method = .exhaustive → ∃ r, solve f o = .ok r ∧ r.Reports f o all.reverse) := by
  have enumerates := Problem.enumerates_branchSearch ⟨f.expr, cs⟩
  have reversed := (Problem.enumerates_rowSearch ⟨f.expr, cs⟩).unique enumerates
  have capacity (procedure : Enumeration) : checkCapacity procedure
      (Problem.mk f.expr cs).vars.length TruthTable.maxVariables = .ok () :=
    (checkCapacity_eq_ok_iff _ _ _ _).mpr small
  refine ⟨_, enumerates, ?_⟩
  rintro o rfl
  constructor
  · intro chosen
    apply exists_reports_of_found enumerates fun s => Iff.rfl
    · rw [chosen]
      exact Error.bind_eq_ok_iff.mpr ⟨(), capacity _, rfl⟩
    · rw [chosen]
      change (Problem.branchSearch ⟨f.expr, o.constraints⟩ o.findAll).solutions = _
      cases o.findAll with
      | true => rfl
      | false => exact Problem.solutions_branchSearch_first _
  · intro chosen
    apply exists_reports_of_found enumerates fun s => List.mem_reverse
    · rw [chosen]
      exact Error.bind_eq_ok_iff.mpr ⟨(), capacity _, rfl⟩
    · rw [chosen, ← reversed, List.reverse_reverse]
      change (Problem.rowSearch ⟨f.expr, o.constraints⟩ o.findAll).solutions = _
      cases o.findAll with
      | true => rfl
      | false => exact Problem.solutions_rowSearch_first _

theorem exists_solve_eq_exactly_one :
    let f : Formula := ⟨"A+B", "A+B", .binary .or (.var ⟨0⟩) (.var ⟨1⟩)⟩
    let o : Options :=
      ⟨.branching, true, some 0, 10000, 0.5, 0, [.exactlyOne [⟨1⟩, ⟨2⟩]]⟩
    (Problem.mk f.expr o.constraints).vars.length ≤ TruthTable.maxVariables ∧
      ∃ r, solve f o = .ok r ∧ r.solutions = [] ∧ r.satisfiable = true := by
  intro f o
  have small : (Problem.mk f.expr o.constraints).vars.length ≤ TruthTable.maxVariables := by decide
  obtain ⟨all, _, reports⟩ := exists_solve_eq f o.constraints small
  obtain ⟨r, done, reported⟩ := (reports o rfl).1 rfl
  refine ⟨small, r, done, reported.solutions_eq.trans rfl, ?_⟩
  rw [reported.satisfiable_iff]
  exact ⟨.ofIndex 5 [⟨0⟩, ⟨1⟩, ⟨2⟩], by decide, by decide⟩

end SwitchingLogic.Satisfaction
