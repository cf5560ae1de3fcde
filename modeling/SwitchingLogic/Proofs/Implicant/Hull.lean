import Mathlib.Data.List.Perm.Subperm
import SwitchingLogic.Proofs.Implicant.Espresso

/-!
# Hulls

The hull of a list of rows covers all of them.  A cube has as many rows as its free positions can
be filled, so that rows in this number are all that their hull covers.
-/

namespace SwitchingLogic.Implicant

variable {a : Implicant} {rows : List Nat} {width : Nat}

theorem getLsbD_foldl_and (rows : List Nat) (start : BitVec 32) {i : Nat} (low : i < 32) :
    ((rows.map (BitVec.ofNat 32 ·)).foldl (· &&& ·) start).getLsbD i =
      (start.getLsbD i && rows.all (·.testBit i)) := by
  induction rows generalizing start with
  | nil => exact (Bool.and_true _).symm
  | cons row rest ih =>
      rw [List.map_cons, List.foldl_cons, ih, BitVec.getLsbD_and, BitVec.getLsbD_ofNat,
        decide_eq_true low, Bool.true_and, Bool.and_assoc, List.all_cons]

theorem getLsbD_foldl_or (rows : List Nat) (start : BitVec 32) {i : Nat} (low : i < 32) :
    ((rows.map (BitVec.ofNat 32 ·)).foldl (· ||| ·) start).getLsbD i =
      (start.getLsbD i || rows.any (·.testBit i)) := by
  induction rows generalizing start with
  | nil => exact (Bool.or_false _).symm
  | cons row rest ih =>
      rw [List.map_cons, List.foldl_cons, ih, BitVec.getLsbD_or, BitVec.getLsbD_ofNat,
        decide_eq_true low, Bool.true_and, Bool.or_assoc, List.any_cons]

theorem value_hull (fits : width ≤ maxWidth) (rows : List Nat) {i : Nat} (low : i < 32) :
    (hull rows width).value.getLsbD i = (decide (i < width) && rows.all (·.testBit i)) := by
  rw [hull, getLsbD_foldl_and rows _ low, getLsbD_fullMask fits]

/-- A position is fixed where all rows have the same bit. -/
theorem care_hull (fits : width ≤ maxWidth) (rows : List Nat) {i : Nat} (low : i < 32) :
    (hull rows width).care.getLsbD i =
      (decide (i < width) && (rows.all (·.testBit i) == rows.any (·.testBit i))) := by
  have unset : (0 : BitVec 32).getLsbD i = false := BitVec.getLsbD_zero
  rw [hull, BitVec.getLsbD_and, BitVec.getLsbD_not, BitVec.getLsbD_xor,
    getLsbD_foldl_and rows _ low, getLsbD_foldl_or rows _ low, getLsbD_fullMask fits, unset,
    decide_eq_true low]
  cases decide (i < width) <;> cases rows.all (·.testBit i) <;> cases rows.any (·.testBit i) <;> rfl

theorem wellFormed_hull (fits : width ≤ maxWidth) {row : Nat} (member : row ∈ rows) :
    (hull rows width).WellFormed where
  care_of_value i value := by
    have low := BitVec.lt_of_getLsbD value
    rw [value_hull fits rows low, Bool.and_eq_true] at value
    have any : rows.any (·.testBit i) = true :=
      List.any_eq_true.mpr ⟨row, member, List.all_eq_true.mp value.2 row member⟩
    rw [care_hull fits rows low, value.1, value.2, any]
    rfl
  lt_width i cared := by
    rw [care_hull fits rows (BitVec.lt_of_getLsbD cared), Bool.and_eq_true] at cared
    exact of_decide_eq_true cared.1
  width_le := fits

theorem covers_hull (fits : width ≤ maxWidth) {row : Nat} (member : row ∈ rows) :
    (hull rows width).covers row = true := by
  rw [covers_iff (wellFormed_hull fits member)]
  intro i cared
  have low := BitVec.lt_of_getLsbD cared
  rw [care_hull fits rows low, Bool.and_eq_true, beq_iff_eq] at cared
  rw [value_hull fits rows low, cared.1, Bool.true_and]
  cases all : rows.all (·.testBit i) with
  | true => exact List.all_eq_true.mp all row member
  | false =>
      have any := cared.2.symm.trans all
      exact Bool.eq_false_iff.mpr (List.any_eq_false.mp any row member)

/-- Where the rows agree, what their hull covers agrees with them. -/
theorem testBit_of_covers_hull (fits : width ≤ maxWidth) {value : Bool} {i : Nat} (low : i < width)
    (some' : rows ≠ []) (agree : ∀ row ∈ rows, row.testBit i = value) {row : Nat}
    (covered : (hull rows width).covers row = true) : row.testBit i = value := by
  obtain ⟨first, member⟩ := List.exists_mem_of_ne_nil rows some'
  have below : i < 32 := low.trans_le fits
  have all : rows.all (·.testBit i) = value := by
    cases value with
    | true => exact List.all_eq_true.mpr agree
    | false =>
        exact List.all_eq_false.mpr ⟨first, member, Bool.eq_false_iff.mp (agree first member)⟩
  have any : rows.any (·.testBit i) = value := by
    cases value with
    | true => exact List.any_eq_true.mpr ⟨first, member, agree first member⟩
    | false =>
        exact List.any_eq_false.mpr fun row member => Bool.eq_false_iff.mp (agree row member)
  have cared : (hull rows width).care.getLsbD i = true := by
    rw [care_hull fits rows below, all, any, decide_eq_true low, Bool.true_and, beq_self_eq_true]
  rw [(covers_iff (wellFormed_hull fits member) row).mp covered i cared, value_hull fits rows below,
    all, decide_eq_true low, Bool.true_and]

theorem hull_singleton (fits : width ≤ maxWidth) (row : Nat) :
    hull [row] width = minterm row width := by
  refine ext_bits rfl (fun i low => ?_) fun i low => ?_
  · rw [value_hull fits _ low, minterm, BitVec.getLsbD_and, BitVec.getLsbD_ofNat,
      getLsbD_fullMask fits, decide_eq_true low, Bool.true_and, List.all_cons, List.all_nil,
      Bool.and_true, Bool.and_comm]
  · rw [care_hull fits _ low, minterm, getLsbD_fullMask fits]
    simp

theorem length_coveredBelow (a : Implicant) (n : Nat) :
    (a.coveredBelow n).length = 2 ^ (n - (List.range n).countP a.care.getLsbD) := by
  induction n with
  | zero => rfl
  | succ n ih =>
      have fewer : (List.range n).countP a.care.getLsbD ≤ n :=
        List.countP_le_length.trans List.length_range.le
      rw [coveredBelow, List.range_succ, List.countP_append, List.countP_singleton]
      cases a.care.getLsbD n with
      | true =>
          cases a.value.getLsbD n with
          | true => simp [ih]
          | false => simp [ih]
      | false =>
          have next : n + 1 - (List.range n).countP a.care.getLsbD =
              n - (List.range n).countP a.care.getLsbD + 1 := by omega
          simp [ih, next, pow_succ]
          ring

theorem length_covered (wf : a.WellFormed) : a.covered.length = 2 ^ (a.width - a.literalCount) := by
  rw [covered, length_coveredBelow, literalCount_eq wf]

theorem nodup_coveredBelow (a : Implicant) (n : Nat) : (a.coveredBelow n).Nodup := by
  induction n with
  | zero => exact List.nodup_singleton 0
  | succ n ih =>
      have high : ((a.coveredBelow n).map ((1 <<< n) + ·)).Nodup :=
        ih.map fun _ _ => Nat.add_left_cancel
      have apart : (a.coveredBelow n).Disjoint ((a.coveredBelow n).map ((1 <<< n) + ·)) := by
        intro row low lifted
        obtain ⟨other, _, rfl⟩ := List.mem_map.mp lifted
        have below := (mem_coveredBelow.mp low).1
        rw [Nat.one_shiftLeft] at below
        omega
      rw [coveredBelow]
      split
      · split
        · exact high
        · exact ih
      · exact ih.append high apart

/-- Different rows of a cube are all of its rows when there are as many of them. -/
theorem mem_iff_covers (wf : a.WellFormed) (nodup : rows.Nodup)
    (inside : ∀ row ∈ rows, row < 2 ^ a.width ∧ a.covers row = true)
    (all : rows.length = 2 ^ (a.width - a.literalCount)) {row : Nat} (below : row < 2 ^ a.width) :
    row ∈ rows ↔ a.covers row = true := by
  have part : rows.Subperm a.covered :=
    nodup.subperm fun row member => (mem_covered wf).mpr (inside row member)
  have whole : rows.Perm a.covered := part.perm_of_length_le (by rw [length_covered wf, all])
  rw [whole.mem_iff, mem_covered wf, and_iff_right below]

/-- If a cube has no rows but the listed ones, there are as many as its free positions allow. -/
theorem length_of_covers (wf : a.WellFormed) (nodup : rows.Nodup)
    (exact' : ∀ row, row ∈ rows ↔ row < 2 ^ a.width ∧ a.covers row = true) :
    rows.length = 2 ^ (a.width - a.literalCount) := by
  have whole : rows.Perm a.covered :=
    (List.perm_ext_iff_of_nodup nodup (a.nodup_coveredBelow a.width)).mpr fun row =>
      (exact' row).trans (mem_covered wf).symm
  rw [whole.length_eq, length_covered wf]

end SwitchingLogic.Implicant
