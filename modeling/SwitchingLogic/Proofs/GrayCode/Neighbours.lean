import Mathlib.Data.List.Chain
import SwitchingLogic.Proofs.Karnaugh.Grid

/-!
# Neighbours in the reflected code

The second half of the code is the first one backwards, so that the strings at the seam, and those
at the two ends, differ in their first bit only.  Inside each half the strings differ as the shorter
strings do.  The code therefore closes to a circle in which neighbours differ in one bit, and on the
torus of a Karnaugh map neighbouring cells do.
-/

namespace SwitchingLogic

namespace GrayCode

/-- The number of places at which two bit strings of one length differ. -/
def differences (bits others : List Bool) : Nat :=
  (bits.zip others).countP fun (bit, other) => bit != other

@[simp]
theorem differences_cons (bit other : Bool) (bits others : List Bool) :
    differences (bit :: bits) (other :: others) =
      differences bits others + if bit = other then 0 else 1 := by
  cases bit <;> cases other <;> simp [differences]

@[simp]
theorem differences_self (bits : List Bool) : differences bits bits = 0 := by
  induction bits with
  | nil => rfl
  | cons bit rest ih => simp [ih]

theorem differences_comm (bits others : List Bool) :
    differences bits others = differences others bits := by
  induction bits generalizing others with
  | nil => cases others <;> rfl
  | cons bit rest ih =>
      cases others with
      | nil => rfl
      | cons other tail => simp [ih tail, eq_comm]

theorem differences_append {front front' : List Bool} (same : front.length = front'.length)
    (bits others : List Bool) :
    differences (front ++ bits) (front' ++ others) =
      differences front front' + differences bits others := by
  rw [differences, List.zip_append same, List.countP_append]
  rfl

/-- Strings are adjacent when they differ in exactly one bit. -/
def Adjacent (bits others : List Bool) : Prop := differences bits others = 1

theorem Adjacent.symm {bits others : List Bool} (adjacent : Adjacent bits others) :
    Adjacent others bits :=
  (differences_comm others bits).trans adjacent

theorem adjacent_cons {bits others : List Bool} (bit : Bool) (adjacent : Adjacent bits others) :
    Adjacent (bit :: bits) (bit :: others) := by
  simpa [Adjacent] using adjacent

theorem adjacent_first {bit other : Bool} (different : bit ≠ other) (bits : List Bool) :
    Adjacent (bit :: bits) (other :: bits) := by
  simp [Adjacent, different]

theorem length_reflected (n : Nat) : (reflected n).length = 2 ^ n := by
  induction n with
  | zero => rfl
  | succ n ih =>
      rw [reflected, List.length_append, List.length_map, List.length_map, List.length_reverse, ih,
        pow_succ]
      omega

theorem isChain_reflected (n : Nat) : (reflected n).IsChain Adjacent := by
  induction n with
  | zero => exact List.isChain_singleton _
  | succ n ih =>
      have backwards : (reflected n).reverse.IsChain Adjacent :=
        List.isChain_reverse.mpr (ih.imp fun _ _ adjacent => adjacent.symm)
      refine List.IsChain.append ?_ ?_ ?_
      · exact List.isChain_map_of_isChain (false :: ·) (fun _ _ => adjacent_cons false) ih
      · exact List.isChain_map_of_isChain (true :: ·) (fun _ _ => adjacent_cons true) backwards
      · -- At the seam the last of the shorter strings stands behind either bit.
        intro low last high first
        rw [List.getLast?_map, Option.mem_def, Option.map_eq_some_iff] at last
        rw [List.head?_map, List.head?_reverse, Option.mem_def, Option.map_eq_some_iff] at first
        obtain ⟨bits, last, rfl⟩ := last
        obtain ⟨others, first, rfl⟩ := first
        cases last.symm.trans first
        exact adjacent_first Bool.false_ne_true bits

theorem reflected_ne_nil (n : Nat) : reflected n ≠ [] :=
  List.ne_nil_of_length_pos (length_reflected n ▸ Nat.two_pow_pos n)

/-- At the two ends the first of the shorter strings stands behind either bit. -/
theorem adjacent_ends {n : Nat} {last first : List Bool}
    (atEnd : (reflected (n + 1)).getLast? = some last)
    (atStart : (reflected (n + 1)).head? = some first) : Adjacent last first := by
  obtain ⟨bits, rest, shorter⟩ := List.exists_cons_of_ne_nil (reflected_ne_nil n)
  simp only [reflected, shorter, List.map_cons, List.cons_append, List.head?_cons,
    List.reverse_cons, List.map_append, List.map_nil, Option.some.injEq] at atStart atEnd
  rw [← List.cons_append, ← List.append_assoc, List.getLast?_concat, Option.some.injEq] at atEnd
  subst atStart atEnd
  exact adjacent_first Bool.false_ne_true.symm bits

/-- Each string of the code is adjacent to the next one, and the last one to the first. -/
theorem adjacent_getD {n i : Nat} (positive : 0 < n) (inside : i < 2 ^ n) :
    Adjacent ((reflected n).getD i []) ((reflected n).getD ((i + 1) % 2 ^ n) []) := by
  have length := length_reflected n
  have place : i < (reflected n).length := length ▸ inside
  by_cases next : i + 1 < 2 ^ n
  · have place' : i + 1 < (reflected n).length := length ▸ next
    rw [Nat.mod_eq_of_lt next, List.getD_eq_getElem _ _ place, List.getD_eq_getElem _ _ place']
    exact (isChain_reflected n).getElem i place'
  · have last : i + 1 = 2 ^ n := by omega
    have start : 0 < (reflected n).length := Nat.zero_lt_of_lt place
    obtain ⟨m, rfl⟩ := Nat.exists_eq_add_one.mpr positive
    rw [last, Nat.mod_self, List.getD_eq_getElem _ _ place, List.getD_eq_getElem _ _ start]
    apply adjacent_ends
    · rw [List.getLast?_eq_getElem?, length, ← last, Nat.add_sub_cancel]
      exact List.getElem?_eq_getElem place
    · rw [List.head?_eq_getElem?]
      exact List.getElem?_eq_getElem start

/-- The reflected code goes round all bit strings of its length.  Each of them is listed once, and
from one to the next, and from the last to the first, exactly one bit changes. -/
theorem reflected_goes_round (n : Nat) (positive : 0 < n) :
    (reflected n).length = 2 ^ n ∧
      (∀ bits, (reflected n).count bits = if bits.length = n then 1 else 0) ∧
      ∀ i < 2 ^ n,
        differences ((reflected n).getD i []) ((reflected n).getD ((i + 1) % 2 ^ n) []) = 1 := by
  refine ⟨length_reflected n, fun bits => ?_, fun i => adjacent_getD positive⟩
  simp only [(nodup_reflected n).count, mem_reflected]

/-- The last string of three bits is next to the first. -/
theorem reflected_goes_round_closed :
    0 < 3 ∧ (reflected 3).count [true, false, false] = 1 ∧
      differences ((reflected 3).getD 7 []) ((reflected 3).getD 0 []) = 1 :=
  have round := reflected_goes_round 3 (by decide)
  ⟨by decide, round.2.1 [true, false, false], round.2.2 7 (by decide)⟩

end GrayCode

namespace Karnaugh.Grid

/-- The bit string that spells the row of the truth table at a cell. -/
def label (g : Grid) (place : Place) : List Bool :=
  g.rowLabels.getD place.1 [] ++ g.columnLabels.getD place.2 []

theorem bitsValue_label (g : Grid) (place : Place) : bitsValue (g.label place) = g.minterm place :=
  rfl

section Neighbours

variable {α : Type} [LogicFunction α] (f : α) {vs : List Variable} (long : 2 ≤ vs.length)
  {row column : Nat}

include long

/-- From a cell to the next one of its row, around the border, one variable changes. -/
theorem adjacent_label_right (inside : (ofFunction f vs).Inside (row, column)) :
    GrayCode.Adjacent ((ofFunction f vs).label (row, column))
      ((ofFunction f vs).label (row, (column + 1) % (ofFunction f vs).width)) := by
  have wide : (ofFunction f vs).width = 2 ^ (vs.length - vs.length / 2) :=
    GrayCode.length_reflected _
  have columns := GrayCode.adjacent_getD (by omega) (wide ▸ inside.2)
  rw [GrayCode.Adjacent, label, label, GrayCode.differences_append rfl, GrayCode.differences_self,
    wide, Nat.zero_add]
  exact columns

/-- From a cell to the next one of its column, around the border, one variable changes. -/
theorem adjacent_label_below (inside : (ofFunction f vs).Inside (row, column)) :
    GrayCode.Adjacent ((ofFunction f vs).label (row, column))
      ((ofFunction f vs).label ((row + 1) % (ofFunction f vs).height, column)) := by
  have high : (ofFunction f vs).height = 2 ^ (vs.length / 2) := GrayCode.length_reflected _
  have rows := GrayCode.adjacent_getD (by omega) (high ▸ inside.1)
  have inside' : (row + 1) % (ofFunction f vs).height < (ofFunction f vs).height :=
    Nat.mod_lt _ (Nat.zero_lt_of_lt inside.1)
  have same : ((ofFunction f vs).rowLabels.getD row []).length =
      ((ofFunction f vs).rowLabels.getD ((row + 1) % (ofFunction f vs).height) []).length :=
    (GrayCode.length_getD_reflected inside.1).trans (GrayCode.length_getD_reflected inside').symm
  rw [GrayCode.Adjacent, label, label, GrayCode.differences_append same, GrayCode.differences_self,
    high, Nat.add_zero]
  exact rows

end Neighbours

end Karnaugh.Grid

end SwitchingLogic
