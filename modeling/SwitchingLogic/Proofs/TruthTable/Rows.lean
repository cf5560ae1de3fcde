import SwitchingLogic.Proofs.State.Assignment
import SwitchingLogic.Proofs.TruthTable.Canonical

/-!
# Rows of truth tables

Every number below the size of a table has one row, which shows a state with this number and the
value of the function there.  The minterms and the maxterms are the two halves of these numbers,
each in increasing order.
-/

namespace SwitchingLogic.TruthTable

/-- The rows of a value are listed in increasing order. -/
theorem pairwise_rowsWith (t : TruthTable) (value : Bool) :
    (t.rowsWith value).Pairwise (· < ·) := by
  rw [rowsWith, List.pairwise_map]
  refine List.Pairwise.filter _ (List.pairwise_map.mp ?_)
  rw [List.zipIdx_map_snd]
  exact List.pairwise_lt_range'

/-- Every row is either a minterm or a maxterm. -/
theorem perm_minterms_append_maxterms (t : TruthTable) :
    (t.minterms ++ t.maxterms).Perm (List.range t.size) := by
  have numbers : t.outputs.zipIdx.map Prod.snd = List.range t.size := by
    rw [List.zipIdx_map_snd, List.range_eq_range']
    rfl
  have others : t.maxterms =
      (t.outputs.zipIdx.filter fun entry => !(entry.1 == true)).map (·.2) := by
    rw [maxterms, rowsWith]
    congr 2
    funext entry
    obtain ⟨output, _⟩ := entry
    cases output <;> rfl
  rw [← numbers, others, minterms, rowsWith, ← List.map_append]
  exact (List.filter_append_perm _ _).map _

section Tabulate

variable {α : Type} [LogicFunction α] {f : α} {vs : List Variable}

theorem getElem?_rows (f : α) (vs : List Variable) (row : Nat) :
    (tabulate f vs).rows[row]? =
      if row < 2 ^ vs.length then
        some ⟨row, (State.ofIndex row vs).assignment vs,
          LogicFunction.eval f (State.ofIndex row vs)⟩
      else none := by
  rw [rows, List.getElem?_map, List.getElem?_zipIdx, getElem?_outputs]
  split
  · rw [Option.map_some, Option.map_some, Nat.zero_add]
    rfl
  · rfl

theorem length_rows (f : α) (vs : List Variable) :
    (tabulate f vs).rows.length = 2 ^ vs.length := by
  rw [rows, List.length_map, List.length_zipIdx, tabulate, List.length_map, List.length_range,
    Nat.one_shiftLeft]

theorem rows_tabulate (f : α) (vs : List Variable) :
    (tabulate f vs).rows = (List.range (1 <<< vs.length)).map fun index =>
      ⟨index, (State.ofIndex index vs).assignment vs,
        LogicFunction.eval f (State.ofIndex index vs)⟩ := by
  refine List.ext_getElem? fun row => ?_
  rw [getElem?_rows, List.getElem?_map, Nat.one_shiftLeft]
  split
  · rename_i inside
    rw [List.getElem?_range inside]
    rfl
  · rename_i outside
    rw [List.getElem?_eq_none (by simpa using outside)]
    rfl

/-- What a pass over some rows adds to a table. -/
theorem Columns.foldl_push (rows : List Row) (c : Columns) :
    rows.foldl push c = ⟨c.rows ++ rows,
      c.minterms ++ (rows.filter (·.output == true)).map Row.index,
      c.maxterms ++ (rows.filter (·.output == false)).map Row.index⟩ := by
  induction rows generalizing c with
  | nil => simp
  | cons r rest ih =>
      rw [List.foldl_cons, ih, push]
      cases output : r.output with
      | true => simp [output]
      | false => simp [output]

theorem rowsWith_eq (t : TruthTable) (value : Bool) :
    t.rowsWith value = (t.rows.filter (·.output == value)).map Row.index := by
  rw [rowsWith, rows, List.filter_map, List.map_map]
  rfl

theorem rowsWith_eq_nil_iff (t : TruthTable) (value : Bool) :
    t.rowsWith value = [] ↔ ∀ output ∈ t.outputs, output ≠ value := by
  rw [rowsWith, List.map_eq_nil_iff, List.filter_eq_nil_iff]
  conv_rhs => rw [← List.zipIdx_map_fst 0 t.outputs]
  simp only [List.forall_mem_map, beq_iff_eq, ne_eq]

theorem isTautology_iff_maxterms (t : TruthTable) :
    t.isTautology = true ↔ t.maxterms = [] := by
  rw [maxterms, rowsWith_eq_nil_iff, isTautology, List.all_eq_true]
  simp only [id_eq, ne_eq, Bool.not_eq_false]

theorem isContradiction_iff_minterms (t : TruthTable) :
    t.isContradiction = true ↔ t.minterms = [] := by
  rw [minterms, rowsWith_eq_nil_iff, isContradiction, List.all_eq_true]
  simp only [ne_eq, Bool.not_eq_true, Bool.not_eq_true']

/-- One pass over the rows fills the three lists of the table. -/
theorem Columns.fill_eq (f : α) (vs : List Variable) :
    fill f vs = ⟨(tabulate f vs).rows, (tabulate f vs).minterms, (tabulate f vs).maxterms⟩ := by
  have pass : fill f vs = (tabulate f vs).rows.foldl push empty := by
    rw [rows_tabulate, List.foldl_map]
    rfl
  rw [pass, foldl_push, TruthTable.minterms, TruthTable.maxterms, rowsWith_eq, rowsWith_eq]
  rfl

theorem canonicalSop_of_eval_false (never : ∀ s, LogicFunction.eval f s = false) :
    (tabulate f vs).canonicalSop = .const false := by
  have none : (tabulate f vs).minterms = [] := by
    refine List.eq_nil_iff_forall_not_mem.mpr fun row minterm => ?_
    have value := ((mem_rowsWith_tabulate f vs).mp minterm).2
    rw [never] at value
    cases value
  rw [canonicalSop, none, List.map_nil, Expr.disj, Expr.join]
  rfl

theorem canonicalPos_of_eval_true (always : ∀ s, LogicFunction.eval f s = true) :
    (tabulate f vs).canonicalPos = .const true := by
  have none : (tabulate f vs).maxterms = [] := by
    refine List.eq_nil_iff_forall_not_mem.mpr fun row maxterm => ?_
    have value := ((mem_rowsWith_tabulate f vs).mp maxterm).2
    rw [always] at value
    cases value
  rw [canonicalPos, none, List.map_nil, Expr.conj, Expr.join]
  rfl

end Tabulate

/-- A table shows a function: its lists are those that one pass over the rows fills; each number
below its size has a row, which shows a state with this number and the value there; the minterms
and the maxterms divide the numbers by the value; and both canonical forms have the value of the
function everywhere. -/
structure Shows {α : Type} [LogicFunction α] (t : TruthTable) (f : α) : Prop where
  filled : Columns.fill f t.vars = ⟨t.rows, t.minterms, t.maxterms⟩
  length_rows : t.rows.length = 2 ^ t.vars.length
  row : ∀ i r, t.rows[i]? = some r →
    r.index = i ∧ (State.ofAssignment r.assignment).toIndex t.vars = i ∧
      r.output = LogicFunction.eval f (State.ofAssignment r.assignment)
  increasing : t.minterms.Pairwise (· < ·) ∧ t.maxterms.Pairwise (· < ·)
  partition : (t.minterms ++ t.maxterms).Perm (List.range (2 ^ t.vars.length))
  minterms : ∀ i, i ∈ t.minterms ↔ ∃ r, t.rows[i]? = some r ∧ r.output = true
  maxterms : ∀ i, i ∈ t.maxterms ↔ ∃ r, t.rows[i]? = some r ∧ r.output = false
  sop : ∀ s, t.canonicalSop.eval s = LogicFunction.eval f s
  pos : ∀ s, t.canonicalPos.eval s = LogicFunction.eval f s
  never : (∀ s, LogicFunction.eval f s = false) → t.canonicalSop = .const false
  always : (∀ s, LogicFunction.eval f s = true) → t.canonicalPos = .const true

variable {α : Type} [LogicFunction α] {f : α} {vs : List Variable}

theorem mem_rowsWith_iff_row (f : α) (vs : List Variable) (value : Bool) (i : Nat) :
    i ∈ (tabulate f vs).rowsWith value ↔
      ∃ r, (tabulate f vs).rows[i]? = some r ∧ r.output = value := by
  rw [mem_rowsWith_tabulate, getElem?_rows]
  constructor
  · rintro ⟨inside, output⟩
    exact ⟨_, if_pos inside, output⟩
  · rintro ⟨r, found, output⟩
    split at found
    · rename_i inside
      cases found
      exact ⟨inside, output⟩
    · cases found

theorem state_row (depends : LogicFunction.DependsOn f vs) (nodup : vs.Nodup)
    (short : vs.length ≤ 64) {i : Nat} {r : Row} (found : (tabulate f vs).rows[i]? = some r) :
    r.index = i ∧ (State.ofAssignment r.assignment).toIndex vs = i ∧
      r.output = LogicFunction.eval f (State.ofAssignment r.assignment) := by
  rw [getElem?_rows] at found
  split at found
  · rename_i inside
    cases found
    have same (v : Variable) (listed : v ∈ vs) :
        (State.ofAssignment ((State.ofIndex i vs).assignment vs)).isActive v =
          (State.ofIndex i vs).isActive v := by
      rw [State.isActive_ofAssignment_assignment, decide_eq_true listed, Bool.true_and]
    refine ⟨rfl, ?_, (depends _ _ same).symm⟩
    rw [State.toIndex_congr same, State.toIndex_ofIndex nodup short inside]
  · cases found

/-- A function of up to ten different variables has a table, which shows it. -/
theorem exists_build_shows (f : α) (vs : List Variable) (nodup : vs.Nodup)
    (small : vs.length ≤ maxVariables) (depends : LogicFunction.DependsOn f vs) :
    ∃ t, build f vs = .ok t ∧ t.vars = vs ∧ t.Shows f := by
  have short : vs.length ≤ 64 := small.trans (by decide)
  have size : (tabulate f vs).size = 2 ^ vs.length := by
    rw [← length_rows f vs, rows, List.length_map, List.length_zipIdx]
    rfl
  refine ⟨_, (build_eq_ok_iff f vs).mpr ⟨small, rfl⟩, rfl, ?_⟩
  exact {
    filled := Columns.fill_eq f vs
    length_rows := length_rows f vs
    row := fun i r found => state_row depends nodup short found
    increasing := ⟨pairwise_rowsWith _ true, pairwise_rowsWith _ false⟩
    partition := size ▸ perm_minterms_append_maxterms _
    minterms := mem_rowsWith_iff_row f vs true
    maxterms := mem_rowsWith_iff_row f vs false
    sop := eval_canonicalSop depends nodup short
    pos := eval_canonicalPos depends nodup short
    never := canonicalSop_of_eval_false
    always := canonicalPos_of_eval_true }

theorem exists_build_shows_asymmetric :
    let f : Expr := .binary .and (.var ⟨0⟩) (.not (.var ⟨1⟩))
    let vs : List Variable := [⟨1⟩, ⟨0⟩]
    vs.Nodup ∧ vs.length ≤ maxVariables ∧ LogicFunction.DependsOn f vs ∧
      ∃ t, build f vs = .ok t ∧ (t.minterms ++ t.maxterms).Perm [0, 1, 2, 3] ∧
        ∀ s, t.canonicalPos.eval s = (s.isActive ⟨0⟩ && !s.isActive ⟨1⟩) := by
  intro f vs
  have nodup : vs.Nodup := by decide
  have small : vs.length ≤ maxVariables := by decide
  have depends : LogicFunction.DependsOn f vs := fun s t same =>
    congrArg₂ (fun a b => a && !b) (same ⟨0⟩ (by decide)) (same ⟨1⟩ (by decide))
  obtain ⟨t, built, listed, shown⟩ := exists_build_shows f vs nodup small depends
  have partition := shown.partition
  rw [listed] at partition
  exact ⟨nodup, small, depends, t, built, partition, shown.pos⟩

end SwitchingLogic.TruthTable
