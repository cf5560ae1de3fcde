import Mathlib.Data.List.GetD
import Mathlib.Data.List.Induction
import Mathlib.Data.List.Nodup
import SwitchingLogic.Karnaugh.Grid
import SwitchingLogic.Proofs.TruthTable.Canonical

/-!
# Places and rows

The reflected code lists each bit string of its length once, and a bit string spells each number
below the power of two once.  The places of a grid and the rows of the truth table therefore
correspond to each other, and a place has the value of the function in its state.
-/

namespace SwitchingLogic

namespace GrayCode

theorem mem_reflected {n : Nat} {bits : List Bool} : bits ∈ reflected n ↔ bits.length = n := by
  induction n generalizing bits with
  | zero => simp [reflected]
  | succ n ih =>
      cases bits with
      | nil => simp [reflected]
      | cons bit rest => cases bit <;> simp [reflected, ih]

theorem nodup_reflected (n : Nat) : (reflected n).Nodup := by
  induction n with
  | zero => exact List.nodup_singleton _
  | succ n ih =>
      refine List.Nodup.append (ih.map (List.cons_injective))
        ((List.nodup_reverse.mpr ih).map List.cons_injective) fun bits low high => ?_
      obtain ⟨_, _, rfl⟩ := List.mem_map.mp low
      obtain ⟨_, _, same⟩ := List.mem_map.mp high
      cases same

/-! The strings of the code by their places in it. -/

theorem length_getD_reflected {n i : Nat} (inside : i < (reflected n).length) :
    ((reflected n).getD i []).length = n := by
  rw [List.getD_eq_getElem _ _ inside]
  exact mem_reflected.mp (List.getElem_mem inside)

theorem getD_reflected_inj {n i j : Nat} (inside : i < (reflected n).length)
    (inside' : j < (reflected n).length)
    (same : (reflected n).getD i [] = (reflected n).getD j []) : i = j := by
  rw [List.getD_eq_getElem _ _ inside, List.getD_eq_getElem _ _ inside'] at same
  exact ((nodup_reflected n).getElem_inj_iff).mp same

theorem exists_getD_reflected (bits : List Bool) :
    ∃ i < (reflected bits.length).length, (reflected bits.length).getD i [] = bits := by
  obtain ⟨i, inside, found⟩ := List.getElem_of_mem (mem_reflected.mpr (rfl : bits.length = _))
  exact ⟨i, inside, (List.getD_eq_getElem _ _ inside).trans found⟩

end GrayCode

namespace Karnaugh

theorem bitsValue_concat (bits : List Bool) (bit : Bool) :
    bitsValue (bits ++ [bit]) = 2 * bitsValue bits + bit.toNat := by
  rw [bitsValue, List.foldl_append]
  rfl

theorem bitsValue_lt (bits : List Bool) : bitsValue bits < 2 ^ bits.length := by
  induction bits using List.reverseRecOn with
  | nil => exact Nat.one_pos
  | append_singleton bits bit ih =>
      have small : bit.toNat < 2 := Bool.toNat_lt bit
      rw [bitsValue_concat, List.length_append, List.length_singleton, pow_succ]
      omega

theorem eq_of_bitsValue_eq {bits others : List Bool} (length : bits.length = others.length)
    (value : bitsValue bits = bitsValue others) : bits = others := by
  induction bits using List.reverseRecOn generalizing others with
  | nil => exact (List.length_eq_zero_iff.mp length.symm).symm
  | append_singleton bits bit ih =>
      cases others using List.reverseRecOn with
      | nil => simp at length
      | append_singleton others other =>
          rw [bitsValue_concat, bitsValue_concat] at value
          have small : bit.toNat < 2 := Bool.toNat_lt bit
          have small' : other.toNat < 2 := Bool.toNat_lt other
          have front : bits = others := ih (by simpa using length) (by omega)
          have last : bit = other := by
            have same : bit.toNat = other.toNat := by omega
            revert same
            cases bit <;> cases other <;> decide
          rw [front, last]

theorem exists_bitsValue_eq {n row : Nat} (inside : row < 2 ^ n) :
    ∃ bits, bits.length = n ∧ bitsValue bits = row := by
  induction n generalizing row with
  | zero => exact ⟨[], rfl, (Nat.lt_one_iff.mp inside).symm⟩
  | succ n ih =>
      have half : row / 2 < 2 ^ n := by
        rw [pow_succ] at inside
        omega
      obtain ⟨bits, length, value⟩ := ih half
      refine ⟨bits ++ [decide (row % 2 = 1)], by simp [length], ?_⟩
      rw [bitsValue_concat, value]
      obtain even | odd := Nat.mod_two_eq_zero_or_one row
      · rw [even]
        simp
        omega
      · rw [odd]
        simp
        omega

namespace Grid

def Inside (g : Grid) (place : Place) : Prop := place.1 < g.height ∧ place.2 < g.width

theorem mem_places {g : Grid} {place : Place} : place ∈ g.places.flatten ↔ g.Inside place := by
  simp [places, rowPlaces, Inside, Prod.ext_iff, and_comm, and_left_comm]

/-- The grid shows the truth table of a function: its places are the rows of the table, each at one
place, and show the values there. -/
structure Shows {α : Type} [LogicFunction α] (g : Grid) (f : α) : Prop where
  nodup : g.vars.Nodup
  short : g.vars.length ≤ 6
  depends : LogicFunction.DependsOn f g.vars
  minterm_lt : ∀ place, g.Inside place → g.minterm place < 2 ^ g.vars.length
  minterm_inj : ∀ place other, g.Inside place → g.Inside other →
    g.minterm place = g.minterm other → place = other
  exists_minterm : ∀ row < 2 ^ g.vars.length, ∃ place, g.Inside place ∧ g.minterm place = row
  value_eq : ∀ place, g.Inside place → g.value place = LogicFunction.eval f (g.state place)

theorem shows_ofFunction {α : Type} [LogicFunction α] {f : α} {vs : List Variable}
    (nodup : vs.Nodup) (short : vs.length ≤ 6) (depends : LogicFunction.DependsOn f vs) :
    (ofFunction f vs).Shows f := by
  have bits : vs.length / 2 + (vs.length - vs.length / 2) = vs.length := by omega
  have minterm_lt (place : Place) (inside : (ofFunction f vs).Inside place) :
      (ofFunction f vs).minterm place < 2 ^ vs.length := by
    have below := bitsValue_lt ((GrayCode.reflected (vs.length / 2)).getD place.1 [] ++
      (GrayCode.reflected (vs.length - vs.length / 2)).getD place.2 [])
    rwa [List.length_append, GrayCode.length_getD_reflected inside.1,
      GrayCode.length_getD_reflected inside.2, bits] at below
  refine ⟨nodup, short, depends, minterm_lt, ?_, ?_, ?_⟩
  · intro place other inside inside' same
    have rows := GrayCode.length_getD_reflected inside.1
    have rows' := GrayCode.length_getD_reflected inside'.1
    have columns := GrayCode.length_getD_reflected inside.2
    have columns' := GrayCode.length_getD_reflected inside'.2
    have labels := eq_of_bitsValue_eq (by
      rw [List.length_append, List.length_append]
      exact congrArg₂ _ (rows.trans rows'.symm) (columns.trans columns'.symm)) same
    obtain ⟨row, column⟩ := List.append_inj labels (rows.trans rows'.symm)
    exact Prod.ext (GrayCode.getD_reflected_inj inside.1 inside'.1 row)
      (GrayCode.getD_reflected_inj inside.2 inside'.2 column)
  · intro row below
    obtain ⟨label, length, value⟩ := exists_bitsValue_eq below
    have front : (label.take (vs.length / 2)).length = vs.length / 2 := by
      rw [List.length_take, length]
      exact Nat.min_eq_left (Nat.div_le_self _ _)
    have back : (label.drop (vs.length / 2)).length = vs.length - vs.length / 2 := by
      rw [List.length_drop, length]
      rfl
    obtain ⟨i, rows, rowLabel⟩ := GrayCode.exists_getD_reflected (label.take (vs.length / 2))
    obtain ⟨j, columns, columnLabel⟩ := GrayCode.exists_getD_reflected (label.drop (vs.length / 2))
    rw [front] at rows rowLabel
    rw [back] at columns columnLabel
    refine ⟨(i, j), ⟨rows, columns⟩, ?_⟩
    rw [← value, ← List.take_append_drop (vs.length / 2) label]
    exact congrArg₂ (fun row column => bitsValue (row ++ column)) rowLabel columnLabel
  · intro place inside
    have output := TruthTable.getElem?_outputs f vs ((ofFunction f vs).minterm place)
    rw [if_pos (minterm_lt place inside)] at output
    exact List.getD_eq_getElem?_getD.trans (congrArg (Option.getD · false) output)

end Grid

end Karnaugh

end SwitchingLogic
