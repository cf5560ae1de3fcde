import SwitchingLogic.Proofs.Error.Results
import SwitchingLogic.Proofs.Expr.Values
import SwitchingLogic.Proofs.State.Assignment
import SwitchingLogic.Satisfaction.Equivalence

/-!
# Deciding equivalence

Two formulas are compared on the rows of their common list of variables.  Neither of them looks at
another variable, so a state in which they differ has a row in which they differ: finding no such
row means that they are equal everywhere.
-/

namespace SwitchingLogic.Equivalence

/-- What a comparison reports is true of the two formulas.  The counterexamples are the states of
the variables in which they differ, by increasing rows; each is reported as an assignment of all
variables, from which it can be made again. -/
structure Result.Decides (f g : Formula) (r : Result) : Prop where
  sorted : r.vars.Pairwise fun v w => v.index < w.index
  mem_vars : ∀ v, v ∈ r.vars ↔
    f.expr.vars.contains v = true ∨ g.expr.vars.contains v = true
  checked_eq : r.checked = 2 ^ r.vars.length
  equivalent_iff : r.equivalent = true ↔ ∀ s, f.expr.eval s = g.expr.eval s
  mem_iff : ∀ c, c ∈ r.counterexamples ↔ (∀ v, c.state.isActive v = true → v ∈ r.vars) ∧
    c.left = f.expr.eval c.state ∧ c.right = g.expr.eval c.state ∧ c.left ≠ c.right
  increasing : r.counterexamples.Pairwise fun c d =>
    c.state.toIndex r.vars < d.state.toIndex r.vars
  assignment : ∀ c ∈ r.counterexamples,
    (c.state.assignment r.vars).map Prod.fst = r.vars ∧
      State.ofAssignment (c.state.assignment r.vars) = c.state

variable {f g : Formula} {vs : List Variable}

theorem counterexample?_eq_some_iff {row : Nat} {c : Counterexample} :
    counterexample? f g vs row = some c ↔ c.state = State.ofIndex row vs ∧
      c.left = f.expr.eval c.state ∧ c.right = g.expr.eval c.state ∧ c.left ≠ c.right := by
  rw [counterexample?]
  split
  · rename_i same
    refine iff_of_false (by simp) ?_
    rintro ⟨state, left, right, differ⟩
    rw [left, right, state] at differ
    exact differ same
  · rename_i differ
    rw [Option.some_inj]
    constructor
    · rintro rfl
      exact ⟨rfl, rfl, rfl, differ⟩
    · cases c with
      | mk state left right =>
          rintro ⟨rfl, first, second, _⟩
          exact (congrArg₂ (Counterexample.mk _) first second).symm

/-- Every state that gives values to the listed variables only has a row of its own. -/
theorem mem_counterexamples (nodup : vs.Nodup) (short : vs.length ≤ 64) (c : Counterexample) :
    c ∈ (List.range (2 ^ vs.length)).filterMap (counterexample? f g vs) ↔
      (∀ v, c.state.isActive v = true → v ∈ vs) ∧
        c.left = f.expr.eval c.state ∧ c.right = g.expr.eval c.state ∧ c.left ≠ c.right := by
  rw [← State.exists_ofIndex_eq_iff nodup short]
  simp only [List.mem_filterMap, List.mem_range, counterexample?_eq_some_iff]
  constructor
  · rintro ⟨row, inside, state, values⟩
    exact ⟨⟨row, inside, state.symm⟩, values⟩
  · rintro ⟨⟨row, inside, state⟩, values⟩
    exact ⟨row, inside, state.symm, values⟩

theorem pairwise_counterexamples (nodup : vs.Nodup) (short : vs.length ≤ 64) :
    ((List.range (2 ^ vs.length)).filterMap (counterexample? f g vs)).Pairwise
      fun c d => c.state.toIndex vs < d.state.toIndex vs := by
  rw [List.pairwise_filterMap]
  refine List.pairwise_lt_range.imp_of_mem fun first second below c found d found' => ?_
  rw [List.mem_range] at first second
  rw [(counterexample?_eq_some_iff.mp found).1, (counterexample?_eq_some_iff.mp found').1,
    State.toIndex_ofIndex nodup short first, State.toIndex_ofIndex nodup short second]
  exact below

/-- A tree over the listed variables has its value in a state already in the row of the state. -/
theorem eval_row (nodup : vs.Nodup) (short : vs.length ≤ 64) {e : Expr}
    (inside : ∀ v, e.vars.contains v = true → v ∈ vs) (s : State) :
    e.eval (State.ofIndex (s.toIndex vs) vs) = e.eval s :=
  e.eval_congr fun v used => s.isActive_ofIndex_toIndex nodup short (inside v used)

theorem counterexamples_eq_nil_iff (nodup : vs.Nodup) (short : vs.length ≤ 64)
    (left : ∀ v, f.expr.vars.contains v = true → v ∈ vs)
    (right : ∀ v, g.expr.vars.contains v = true → v ∈ vs) :
    (List.range (2 ^ vs.length)).filterMap (counterexample? f g vs) = [] ↔
      ∀ s, f.expr.eval s = g.expr.eval s := by
  constructor
  · intro none s
    rw [← eval_row nodup short left s, ← eval_row nodup short right s]
    by_contra differ
    have row : s.toIndex vs ∈ List.range (2 ^ vs.length) :=
      List.mem_range.mpr (s.toIndex_lt short)
    have found := List.filterMap_eq_nil_iff.mp none _ row
    have present : counterexample? f g vs (s.toIndex vs) = some ⟨_, _, _⟩ :=
      counterexample?_eq_some_iff.mpr ⟨rfl, rfl, rfl, differ⟩
    rw [found] at present
    cases present
  · intro same
    refine List.eq_nil_iff_forall_not_mem.mpr fun c found => ?_
    obtain ⟨_, first, second, differ⟩ := (mem_counterexamples nodup short c).mp found
    exact differ (first.trans ((same c.state).trans second.symm))

/-- Two formulas of up to ten variables together can be compared, and the outcome is right. -/
theorem exists_compare_decides (f g : Formula)
    (small : (f.expr.vars.union g.expr.vars).toList.length ≤ TruthTable.maxVariables) :
    ∃ r, compare f g = .ok r ∧ r.Decides f g := by
  have nodup := (f.expr.vars.union g.expr.vars).nodup_toList
  have short : (f.expr.vars.union g.expr.vars).toList.length ≤ 64 := small.trans (by decide)
  have mem_vars (v : Variable) : v ∈ (f.expr.vars.union g.expr.vars).toList ↔
      f.expr.vars.contains v = true ∨ g.expr.vars.contains v = true := by
    rw [VarSet.mem_toList, VarSet.contains_union, Bool.or_eq_true]
  refine ⟨_, Error.bind_eq_ok_iff.mpr ⟨(), (checkCapacity_eq_ok_iff _ _ _ _).mpr small, rfl⟩, ?_⟩
  simp only [Nat.one_shiftLeft]
  exact {
    sorted := VarSet.pairwise_toList _
    mem_vars := mem_vars
    checked_eq := rfl
    equivalent_iff := by
      rw [List.isEmpty_iff]
      exact counterexamples_eq_nil_iff nodup short (fun v used => (mem_vars v).mpr (.inl used))
        fun v used => (mem_vars v).mpr (.inr used)
    mem_iff := mem_counterexamples nodup short
    increasing := pairwise_counterexamples nodup short
    assignment := fun c found => by
      rw [State.map_fst_assignment, VarSet.ofList_toList]
      exact ⟨rfl, State.ofAssignment_assignment ((mem_counterexamples nodup short c).mp found).1⟩ }

theorem exists_compare_decides_shifted :
    let f : Formula := ⟨"A+B", "A+B", .binary .or (.var ⟨0⟩) (.var ⟨1⟩)⟩
    let g : Formula := ⟨"B+C", "B+C", .binary .or (.var ⟨1⟩) (.var ⟨2⟩)⟩
    (f.expr.vars.union g.expr.vars).toList.length ≤ TruthTable.maxVariables ∧
      ∃ r, compare f g = .ok r ∧ r.equivalent = false ∧
        ⟨.ofList [⟨0⟩], true, false⟩ ∈ r.counterexamples := by
  intro f g
  have small : (f.expr.vars.union g.expr.vars).toList.length ≤ TruthTable.maxVariables := by decide
  obtain ⟨r, done, decided⟩ := exists_compare_decides f g small
  refine ⟨small, r, done, Bool.eq_false_iff.mpr fun equal => ?_,
    (decided.mem_iff _).mpr ⟨fun v active => ?_, by decide, by decide, by decide⟩⟩
  · exact absurd (decided.equivalent_iff.mp equal (.ofList [⟨0⟩])) (by decide)
  · rw [State.isActive, State.ofList, VarSet.contains_ofList, decide_eq_true_eq,
      List.mem_singleton] at active
    exact (decided.mem_vars v).mpr (.inl (active ▸ by decide))

end SwitchingLogic.Equivalence
