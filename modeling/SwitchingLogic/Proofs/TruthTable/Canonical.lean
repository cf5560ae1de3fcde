import SwitchingLogic.Proofs.Error.Results
import SwitchingLogic.Proofs.Term.Values
import SwitchingLogic.TruthTable

/-!
# Truth tables and canonical forms

The table of a function over different variables, on which alone its value depends, holds the
value in every state: it stands in the row of the state.  The term of a row holds in the states of
that row only, so both canonical forms have the value of the function everywhere.
-/

namespace SwitchingLogic

/-- The value of a function depends on the listed variables only. -/
def LogicFunction.DependsOn {α : Type} [LogicFunction α] (f : α) (vs : List Variable) : Prop :=
  ∀ s t : State, (∀ v ∈ vs, s.isActive v = t.isActive v) → eval f s = eval f t

theorem Expr.dependsOn_vars (e : Expr) : LogicFunction.DependsOn e e.vars.toList :=
  fun _ _ same => e.eval_congr fun v member => same v (VarSet.mem_toList.mpr member)

namespace TruthTable

theorem mem_rowsWith {t : TruthTable} {value : Bool} {row : Nat} :
    row ∈ t.rowsWith value ↔ t.outputs[row]? = some value := by
  simp only [rowsWith, List.mem_map, List.mem_filter, Prod.exists,
    List.mk_mem_zipIdx_iff_getElem?, beq_iff_eq]
  constructor
  · rintro ⟨output, place, ⟨found, rfl⟩, rfl⟩
    exact found
  · intro found
    exact ⟨value, row, ⟨found, rfl⟩, rfl⟩

section Tabulate

variable {α : Type} [LogicFunction α] (f : α) (vs : List Variable)

theorem build_eq_ok_iff {t : TruthTable} :
    build f vs = .ok t ↔ vs.length ≤ maxVariables ∧ tabulate f vs = t := by
  rw [build, Error.bind_eq_ok_iff]
  simp only [checkCapacity_eq_ok_iff, Error.pure_eq_ok_iff, exists_const]

theorem build_eq_error_iff {e : Error} :
    build f vs = .error e ↔
      maxVariables < vs.length ∧ .capacity .truthTable vs.length maxVariables = e := by
  rw [build, Error.bind_eq_error_iff, checkCapacity_eq_error_iff, or_iff_left]
  rintro ⟨_, _, failed⟩
  cases failed

theorem getElem?_outputs (row : Nat) :
    (tabulate f vs).outputs[row]? =
      if row < 2 ^ vs.length then some (LogicFunction.eval f (State.ofIndex row vs)) else none := by
  rw [tabulate, List.getElem?_map, Nat.one_shiftLeft]
  split
  · rename_i inside
    rw [List.getElem?_range inside, Option.map_some]
  · rename_i outside
    rw [List.getElem?_eq_none (by rw [List.length_range]; exact Nat.le_of_not_lt outside),
      Option.map_none]

theorem mem_rowsWith_tabulate {value : Bool} {row : Nat} :
    row ∈ (tabulate f vs).rowsWith value ↔
      row < 2 ^ vs.length ∧ LogicFunction.eval f (State.ofIndex row vs) = value := by
  rw [mem_rowsWith, getElem?_outputs]
  split
  · rename_i inside
    rw [Option.some_inj, and_iff_right inside]
  · rename_i outside
    exact iff_of_false (by simp) fun both => outside both.1

variable {f vs}

/-- The value in a state is the value in its row. -/
theorem eval_ofIndex_toIndex (depends : LogicFunction.DependsOn f vs) (nodup : vs.Nodup)
    (short : vs.length ≤ 64) (s : State) :
    LogicFunction.eval f (State.ofIndex (s.toIndex vs) vs) = LogicFunction.eval f s :=
  depends _ _ fun _ listed => s.isActive_ofIndex_toIndex nodup short listed

/-- The row of a state is listed under the value in that state. -/
theorem toIndex_mem_rowsWith (depends : LogicFunction.DependsOn f vs) (nodup : vs.Nodup)
    (short : vs.length ≤ 64) (s : State) (value : Bool) :
    s.toIndex vs ∈ (tabulate f vs).rowsWith value ↔ LogicFunction.eval f s = value := by
  rw [mem_rowsWith_tabulate, and_iff_right (s.toIndex_lt short),
    eval_ofIndex_toIndex depends nodup short]

theorem isTautology_iff (depends : LogicFunction.DependsOn f vs) (nodup : vs.Nodup)
    (short : vs.length ≤ 64) :
    (tabulate f vs).isTautology = true ↔ ∀ s, LogicFunction.eval f s = true := by
  rw [isTautology, tabulate, List.all_map, List.all_eq_true]
  constructor
  · intro everywhere s
    rw [← eval_ofIndex_toIndex depends nodup short]
    refine everywhere _ (List.mem_range.mpr ?_)
    rw [Nat.one_shiftLeft]
    exact s.toIndex_lt short
  · intro everywhere row _
    exact everywhere _

theorem isContradiction_iff (depends : LogicFunction.DependsOn f vs) (nodup : vs.Nodup)
    (short : vs.length ≤ 64) :
    (tabulate f vs).isContradiction = true ↔ ∀ s, LogicFunction.eval f s = false := by
  rw [isContradiction, tabulate, List.all_map, List.all_eq_true]
  constructor
  · intro nowhere s
    rw [← eval_ofIndex_toIndex depends nodup short, ← Bool.not_eq_true']
    refine nowhere _ (List.mem_range.mpr ?_)
    rw [Nat.one_shiftLeft]
    exact s.toIndex_lt short
  · intro nowhere row _
    exact (Bool.not_eq_true' _).mpr (nowhere _)

end Tabulate

theorem fixes_rowTerm (row : Nat) {vs : List Variable} (nodup : vs.Nodup) (v : Variable)
    (value : Bool) :
    (rowTerm row vs).fixes v value = true ↔
      ∃ place, vs[place]? = some v ∧ row.testBit (vs.length - 1 - place) = value := by
  have places : (vs.zipIdx.map Prod.fst).Nodup := by rwa [List.zipIdx_map_fst]
  have built := Term.fixes_foldl_set (fun _ => true) (rowBit row · vs.length) places v value
  simp only [if_true, List.mk_mem_zipIdx_iff_getElem?, true_and] at built
  exact built

/-- The term of a row holds in the states of this row only. -/
theorem containsState_rowTerm {row : Nat} {vs : List Variable} (nodup : vs.Nodup)
    (short : vs.length ≤ 64) (inside : row < 2 ^ vs.length) (s : State) :
    (rowTerm row vs).containsState s = true ↔ s.toIndex vs = row := by
  rw [Term.containsState_iff]
  constructor
  · intro agree
    rw [← State.toIndex_ofIndex nodup short inside, State.toIndex_eq_foldl _ short,
      State.toIndex_eq_foldl _ short]
    refine List.foldl_ext _ _ _ fun index v listed => ?_
    obtain ⟨place, below, rfl⟩ := List.getElem_of_mem listed
    have fixed := agree vs[place] _
      ((fixes_rowTerm row nodup _ _).mpr ⟨place, List.getElem?_eq_getElem below, rfl⟩)
    rw [fixed, State.isActive_ofIndex row nodup below]
  · rintro rfl v value fixed
    obtain ⟨place, found, bit⟩ := (fixes_rowTerm _ nodup v value).mp fixed
    obtain ⟨below, rfl⟩ := List.getElem?_eq_some_iff.mp found
    rw [← bit, State.testBit_toIndex s short below]

section Canonical

variable {α : Type} [LogicFunction α] {f : α} {vs : List Variable}

/-- The state has one of the rows of a value when the function has this value there. -/
theorem any_containsState_rowsWith (depends : LogicFunction.DependsOn f vs) (nodup : vs.Nodup)
    (short : vs.length ≤ 64) (s : State) (value : Bool) :
    ((tabulate f vs).rowsWith value).any (fun row => (rowTerm row vs).containsState s) =
      (LogicFunction.eval f s == value) := by
  rw [Bool.eq_iff_iff, beq_iff_eq, List.any_eq_true,
    ← toIndex_mem_rowsWith depends nodup short s value]
  constructor
  · rintro ⟨row, listed, holds⟩
    have inside := ((mem_rowsWith_tabulate f vs).mp listed).1
    rwa [(containsState_rowTerm nodup short inside s).mp holds]
  · intro listed
    exact ⟨_, listed, (containsState_rowTerm nodup short (s.toIndex_lt short) s).mpr rfl⟩

theorem eval_canonicalSop (depends : LogicFunction.DependsOn f vs) (nodup : vs.Nodup)
    (short : vs.length ≤ 64) (s : State) :
    (tabulate f vs).canonicalSop.eval s = LogicFunction.eval f s := by
  have rows := any_containsState_rowsWith depends nodup short s true
  have product (row : Nat) :
      ((tabulate f vs).mintermTerm row).toProduct.eval s = (rowTerm row vs).containsState s :=
    Term.eval_toProduct _ s
  rw [canonicalSop, Expr.eval_disj, List.any_map]
  simp only [Function.comp_def, product]
  rw [minterms, rows]
  cases LogicFunction.eval f s <;> rfl

theorem eval_canonicalPos (depends : LogicFunction.DependsOn f vs) (nodup : vs.Nodup)
    (short : vs.length ≤ 64) (s : State) :
    (tabulate f vs).canonicalPos.eval s = LogicFunction.eval f s := by
  have rows := any_containsState_rowsWith depends nodup short s false
  have clause (row : Nat) :
      ((tabulate f vs).maxtermTerm row).toSum.eval s = !(rowTerm row vs).containsState s := by
    rw [Term.eval_toSum, maxtermTerm, Term.negateAll_negateAll]
    rfl
  rw [canonicalPos, Expr.eval_conj, List.all_map]
  simp only [Function.comp_def, clause]
  rw [← List.not_any_eq_all_not, maxterms, rows]
  cases LogicFunction.eval f s <;> rfl

end Canonical

end TruthTable

end SwitchingLogic
