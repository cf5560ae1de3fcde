import SwitchingLogic.Proofs.State.Counting

/-!
# Assignments

The assignment of a state over a list of variables names each of them once, with its value.  The
state made from it gives the listed variables their values back and leaves all others false.
-/

namespace SwitchingLogic

theorem VarSet.ofList_toList (s : VarSet) : ofList s.toList = s := by
  refine ext_contains fun v => ?_
  rw [contains_ofList, Bool.eq_iff_iff, decide_eq_true_eq, mem_toList]

namespace State

theorem map_fst_assignment (s : State) (vs : List Variable) :
    (s.assignment vs).map Prod.fst = (VarSet.ofList vs).toList := by
  rw [assignment, List.map_map]
  exact List.map_id _

theorem isActive_ofAssignment (values : Assignment) (v : Variable) :
    (ofAssignment values).isActive v = decide ((v, true) ∈ values) := by
  rw [ofAssignment, ofList, isActive, VarSet.contains_ofList]
  simp [List.mem_map, List.mem_filter]

/-- The state of an assignment has the values assigned, and no other true variable. -/
theorem isActive_ofAssignment_assignment (s : State) (vs : List Variable) (v : Variable) :
    (ofAssignment (s.assignment vs)).isActive v = (decide (v ∈ vs) && s.isActive v) := by
  rw [isActive_ofAssignment, assignment, Bool.eq_iff_iff]
  simp [List.mem_map]

theorem ofAssignment_assignment {s : State} {vs : List Variable}
    (inside : ∀ v, s.isActive v = true → v ∈ vs) : ofAssignment (s.assignment vs) = s := by
  refine ext_isActive fun v => ?_
  rw [isActive_ofAssignment_assignment]
  cases active : s.isActive v with
  | false => exact Bool.and_false _
  | true => rw [decide_eq_true (inside v active), Bool.and_self]

end State

end SwitchingLogic
