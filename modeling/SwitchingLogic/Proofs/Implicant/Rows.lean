import Mathlib.Data.List.Sort
import Mathlib.Tactic.Ring
import SwitchingLogic.Proofs.Implicant.Masks

/-!
# Rows of implicants

A cube is read bit by bit: a row belongs to it when it has the bit of the cube at every bit that is
cared for.  Freeing a position unites the cube with its neighbour across that position, and the
lower half of a cube across a free position leads back.
-/

namespace SwitchingLogic.Implicant

/-- The masks fit: values stand only at bits cared for, and these lie below the width. -/
structure WellFormed (a : Implicant) : Prop where
  care_of_value : ∀ i, a.value.getLsbD i = true → a.care.getLsbD i = true
  lt_width : ∀ i, a.care.getLsbD i = true → i < a.width
  width_le : a.width ≤ maxWidth

theorem Masked.wellFormed {a : Implicant} (masked : a.Masked) (fits : a.width ≤ maxWidth) :
    a.WellFormed :=
  ⟨masked.care_of_value, masked.lt_width, fits⟩

theorem WellFormed.masked {a : Implicant} (wf : a.WellFormed) : a.Masked :=
  ⟨wf.care_of_value, wf.lt_width⟩

/-- No value stands at a bit that is not cared for. -/
theorem WellFormed.value_eq_false {a : Implicant} (wf : a.WellFormed) {i : Nat}
    (free : a.care.getLsbD i = false) : a.value.getLsbD i = false :=
  Bool.eq_false_iff.mpr fun set => Bool.noConfusion ((wf.care_of_value i set).symm.trans free)

/-- Cubes with the same bits are equal. -/
theorem ext_bits {a b : Implicant} (width : a.width = b.width)
    (value : ∀ i < 32, a.value.getLsbD i = b.value.getLsbD i)
    (care : ∀ i < 32, a.care.getLsbD i = b.care.getLsbD i) : a = b := by
  cases a
  cases b
  cases width
  congr 1
  · exact BitVec.eq_of_getLsbD_eq value
  · exact BitVec.eq_of_getLsbD_eq care

theorem getLsbD_fullMask {width : Nat} (fits : width ≤ maxWidth) (i : Nat) :
    (fullMask width).getLsbD i = decide (i < width) := by
  rw [fullMask, BitVec.getLsbD_ofNat, Nat.one_shiftLeft, Nat.testBit_two_pow_sub_one]
  by_cases low : i < width
  · have fits32 : i < 32 := lt_of_lt_of_le low fits
    rw [decide_eq_true low, decide_eq_true fits32, Bool.and_self]
  · rw [decide_eq_false low, Bool.and_false]

theorem getLsbD_positionMask (position width i : Nat) :
    (positionMask position width).getLsbD i =
      (decide (width - 1 - position < 32) && decide (width - 1 - position = i)) :=
  BitVec.getLsbD_twoPow _ _

/-- Masking a position out clears its bit. -/
theorem getLsbD_and_not_positionMask (mask : BitVec 32) (position width i : Nat) :
    (mask &&& ~~~positionMask position width).getLsbD i =
      (mask.getLsbD i && !decide (width - 1 - position = i)) := by
  rw [BitVec.getLsbD_and, BitVec.getLsbD_not, getLsbD_positionMask]
  by_cases low : i < 32
  · by_cases same : width - 1 - position = i
    · simp [same, low]
    · simp [same, low]
  · rw [BitVec.getLsbD_of_ge mask i (Nat.le_of_not_lt low), Bool.false_and, Bool.false_and]

/-- Setting a position sets its bit. -/
theorem getLsbD_or_positionMask (mask : BitVec 32) {position width : Nat}
    (fits : width ≤ maxWidth) (inside : position < width) (i : Nat) :
    (mask ||| positionMask position width).getLsbD i =
      (mask.getLsbD i || decide (width - 1 - position = i)) := by
  have low : width - 1 - position < 32 := lt_of_lt_of_le (by omega) fits
  rw [BitVec.getLsbD_or, getLsbD_positionMask, decide_eq_true low, Bool.true_and]

/-- Flipping a position changes its bit and no other. -/
theorem getLsbD_xor_positionMask (mask : BitVec 32) {position width : Nat}
    (fits : width ≤ maxWidth) (inside : position < width) (i : Nat) :
    (mask ^^^ positionMask position width).getLsbD i =
      (mask.getLsbD i ^^ decide (width - 1 - position = i)) := by
  have low : width - 1 - position < 32 := lt_of_lt_of_le (by omega) fits
  rw [BitVec.getLsbD_xor, getLsbD_positionMask, decide_eq_true low, Bool.true_and]

/-! ## Coverage -/

/-- A cube covers the rows that agree with it at the bits cared for. -/
theorem covers_iff {a : Implicant} (wf : a.WellFormed) (row : Nat) :
    a.covers row = true ↔
      ∀ i, a.care.getLsbD i = true → row.testBit i = a.value.getLsbD i := by
  rw [covers, beq_iff_eq]
  constructor
  · intro same i cared
    have low : i < 32 := lt_of_lt_of_le (wf.lt_width i cared) wf.width_le
    have bits := congrArg (fun mask => mask.getLsbD i) same
    simpa only [BitVec.getLsbD_and, BitVec.getLsbD_ofNat, cared, decide_eq_true low,
      Bool.true_and, Bool.and_true] using bits
  · intro agree
    refine BitVec.eq_of_getLsbD_eq fun i low => ?_
    rw [BitVec.getLsbD_and, BitVec.getLsbD_ofNat, decide_eq_true low, Bool.true_and]
    cases cared : a.care.getLsbD i with
    | true => rw [Bool.and_true, agree i cared]
    | false =>
        rw [Bool.and_false, wf.value_eq_false cared]

theorem wellFormed_minterm (row : Nat) {width : Nat} (fits : width ≤ maxWidth) :
    (minterm row width).WellFormed :=
  (masked_minterm row width).wellFormed fits

theorem value_minterm (row : Nat) {width i : Nat} (fits : width ≤ maxWidth) (low : i < width) :
    (minterm row width).value.getLsbD i = row.testBit i := by
  have fits32 : i < 32 := lt_of_lt_of_le low fits
  rw [minterm, BitVec.getLsbD_and, BitVec.getLsbD_ofNat, getLsbD_fullMask fits,
    decide_eq_true low, decide_eq_true fits32, Bool.true_and, Bool.and_true]

/-- The cube of a row covers no other row. -/
theorem covers_minterm_iff {row other width : Nat} (fits : width ≤ maxWidth)
    (inside : row < 2 ^ width) (otherInside : other < 2 ^ width) :
    (minterm row width).covers other = true ↔ other = row := by
  rw [covers_iff (wellFormed_minterm row fits)]
  constructor
  · intro agree
    refine Nat.eq_of_testBit_eq fun i => ?_
    by_cases low : i < width
    · have cared := (getLsbD_fullMask fits i).trans (decide_eq_true low)
      rw [agree i cared, value_minterm row fits low]
    · have large : 2 ^ width ≤ 2 ^ i := Nat.pow_le_pow_right Nat.two_pos (Nat.le_of_not_lt low)
      rw [Nat.testBit_lt_two_pow (lt_of_lt_of_le otherInside large),
        Nat.testBit_lt_two_pow (lt_of_lt_of_le inside large)]
  · rintro rfl i cared
    exact (value_minterm other fits ((wellFormed_minterm other fits).lt_width i cared)).symm

theorem wellFormed_free {width : Nat} (fits : width ≤ maxWidth) : (free width).WellFormed :=
  (masked_free width).wellFormed fits

theorem covers_free (row width : Nat) : (free width).covers row = true := by
  rw [covers, beq_iff_eq]
  exact BitVec.and_zero

/-- One cube contains another one that fixes each of its positions to the same bit. -/
theorem contains_iff {a b : Implicant} (wf : a.WellFormed) :
    a.contains b = true ↔ ∀ i, a.care.getLsbD i = true →
      b.care.getLsbD i = true ∧ b.value.getLsbD i = a.value.getLsbD i := by
  rw [contains, Bool.and_eq_true, beq_iff_eq, beq_iff_eq]
  constructor
  · rintro ⟨cares, values⟩ i cared
    have care := congrArg (·.getLsbD i) cares
    have value := congrArg (·.getLsbD i) values
    simp only [BitVec.getLsbD_and, cared, Bool.and_true] at care value
    exact ⟨care, value⟩
  · intro agree
    refine ⟨BitVec.eq_of_getLsbD_eq fun i _ => ?_, BitVec.eq_of_getLsbD_eq fun i _ => ?_⟩
    · rw [BitVec.getLsbD_and]
      cases cared : a.care.getLsbD i with
      | false => exact Bool.and_false _
      | true => rw [(agree i cared).1, Bool.and_self]
    · rw [BitVec.getLsbD_and]
      cases cared : a.care.getLsbD i with
      | false =>
          rw [Bool.and_false, wf.value_eq_false cared]
      | true => rw [(agree i cared).2, Bool.and_true]

theorem contains_self {a : Implicant} (wf : a.WellFormed) : a.contains a = true :=
  (contains_iff wf).mpr fun _ cared => ⟨cared, rfl⟩

/-- A cube contains the cubes whose rows agree with it. -/
theorem covers_of_contains {a b : Implicant} (wide : a.WellFormed) (narrow : b.WellFormed)
    (inside : a.contains b = true) {row : Nat} (covered : b.covers row = true) :
    a.covers row = true := by
  rw [contains_iff wide] at inside
  rw [covers_iff narrow] at covered
  rw [covers_iff wide]
  intro i cared
  obtain ⟨caredBelow, sameValue⟩ := inside i cared
  exact (covered i caredBelow).trans sameValue

/-! ## Freeing a position -/

theorem care_expand (a : Implicant) (position i : Nat) :
    (a.expand position).care.getLsbD i =
      (a.care.getLsbD i && !decide (a.width - 1 - position = i)) :=
  getLsbD_and_not_positionMask a.care position a.width i

theorem value_expand (a : Implicant) (position i : Nat) :
    (a.expand position).value.getLsbD i =
      (a.value.getLsbD i && !decide (a.width - 1 - position = i)) :=
  getLsbD_and_not_positionMask a.value position a.width i

theorem WellFormed.expand {a : Implicant} (wf : a.WellFormed) (position : Nat) :
    (a.expand position).WellFormed :=
  (wf.masked.expanded position).wellFormed wf.width_le

theorem covers_expand_iff {a : Implicant} (wf : a.WellFormed) (position row : Nat) :
    (a.expand position).covers row = true ↔
      ∀ i, a.care.getLsbD i = true → a.width - 1 - position ≠ i →
        row.testBit i = a.value.getLsbD i := by
  rw [covers_iff (wf.expand position)]
  simp only [care_expand, value_expand, Bool.and_eq_true, Bool.not_eq_true',
    decide_eq_false_iff_not, and_imp]
  refine forall_congr' fun i => forall_congr' fun _ => forall_congr' fun other => ?_
  rw [decide_eq_false other, Bool.not_false, Bool.and_true]

/-- Freeing a position keeps all rows. -/
theorem covers_expand_of_covers {a : Implicant} (wf : a.WellFormed) (position : Nat) {row : Nat}
    (covered : a.covers row = true) : (a.expand position).covers row = true := by
  rw [covers_iff wf] at covered
  rw [covers_expand_iff wf]
  exact fun i cared _ => covered i cared

theorem value_opposite {a : Implicant} (wf : a.WellFormed) {position : Nat}
    (inside : position < a.width) (i : Nat) :
    (a.opposite position).value.getLsbD i =
      (a.value.getLsbD i ^^ decide (a.width - 1 - position = i)) :=
  getLsbD_xor_positionMask a.value wf.width_le inside i

theorem WellFormed.opposite {a : Implicant} (wf : a.WellFormed) {position : Nat}
    (inside : position < a.width) (fixed : a.isFixed position = true) :
    (a.opposite position).WellFormed where
  care_of_value i value := by
    rw [value_opposite wf inside] at value
    by_cases same : a.width - 1 - position = i
    · exact same ▸ fixed
    · rw [decide_eq_false same, Bool.xor_false] at value
      exact wf.care_of_value i value
  lt_width := wf.lt_width
  width_le := wf.width_le

/-- Freeing a position unites the cube with its neighbour. -/
theorem covers_expand_iff_or {a : Implicant} (wf : a.WellFormed) {position : Nat}
    (inside : position < a.width) (fixed : a.isFixed position = true) (row : Nat) :
    (a.expand position).covers row = true ↔
      a.covers row = true ∨ (a.opposite position).covers row = true := by
  rw [covers_expand_iff wf, covers_iff wf, covers_iff (wf.opposite inside fixed)]
  constructor
  · intro agree
    by_cases bit : row.testBit (a.width - 1 - position) =
        a.value.getLsbD (a.width - 1 - position)
    · refine Or.inl fun i cared => ?_
      by_cases same : a.width - 1 - position = i
      · exact same ▸ bit
      · exact agree i cared same
    · refine Or.inr fun i cared => ?_
      rw [value_opposite wf inside]
      by_cases same : a.width - 1 - position = i
      · rw [decide_eq_true same, Bool.xor_true, ← same]
        exact Bool.eq_not.mpr bit
      · rw [decide_eq_false same, Bool.xor_false]
        exact agree i cared same
  · rintro (agree | agree) i cared other
    · exact agree i cared
    · have bit := agree i cared
      rwa [value_opposite wf inside, decide_eq_false other, Bool.xor_false] at bit

/-! ## Halving a cube -/

/-- The half of a cube with bit zero at a free position. -/
def lowerHalf (a : Implicant) (position : Nat) : Implicant :=
  { a with care := a.care ||| positionMask position a.width }

theorem care_lowerHalf {a : Implicant} (wf : a.WellFormed) {position : Nat}
    (inside : position < a.width) (i : Nat) :
    (a.lowerHalf position).care.getLsbD i =
      (a.care.getLsbD i || decide (a.width - 1 - position = i)) :=
  getLsbD_or_positionMask a.care wf.width_le inside i

theorem isFixed_lowerHalf {a : Implicant} (wf : a.WellFormed) {position other : Nat}
    (inside : position < a.width) :
    (a.lowerHalf position).isFixed other =
      (a.isFixed other || decide (a.width - 1 - position = a.width - 1 - other)) :=
  care_lowerHalf wf inside _

theorem WellFormed.lowerHalf {a : Implicant} (wf : a.WellFormed) {position : Nat}
    (inside : position < a.width) : (a.lowerHalf position).WellFormed where
  care_of_value i value := by
    rw [care_lowerHalf wf inside, wf.care_of_value i value, Bool.true_or]
  lt_width i cared := by
    rw [care_lowerHalf wf inside, Bool.or_eq_true, decide_eq_true_eq] at cared
    rcases cared with cared | same
    · exact wf.lt_width i cared
    · change i < a.width
      omega
  width_le := wf.width_le

/-- Freeing the position of a half gives the whole cube back. -/
theorem expand_lowerHalf {a : Implicant} (wf : a.WellFormed) {position : Nat}
    (inside : position < a.width) (open' : a.isFixed position = false) :
    (a.lowerHalf position).expand position = a := by
  have unset : a.value.getLsbD (a.width - 1 - position) = false := wf.value_eq_false open'
  refine ext_bits rfl (fun i _ => ?_) (fun i _ => ?_)
  · rw [value_expand]
    change (a.value.getLsbD i && !decide (a.width - 1 - position = i)) = a.value.getLsbD i
    by_cases same : a.width - 1 - position = i
    · rw [← same, unset, Bool.false_and]
    · rw [decide_eq_false same, Bool.not_false, Bool.and_true]
  · rw [care_expand, care_lowerHalf wf inside]
    change ((a.care.getLsbD i || decide (a.width - 1 - position = i)) &&
      !decide (a.width - 1 - position = i)) = a.care.getLsbD i
    by_cases same : a.width - 1 - position = i
    · rw [decide_eq_true same, Bool.not_true, Bool.and_false, ← same]
      exact open'.symm
    · rw [decide_eq_false same, Bool.or_false, Bool.not_false, Bool.and_true]

theorem bit_lowerHalf {a : Implicant} (wf : a.WellFormed) {position : Nat}
    (open' : a.isFixed position = false) : (a.lowerHalf position).bit position = false :=
  wf.value_eq_false open'

/-- The fixed positions are counted below the width. -/
theorem literalCount_eq {a : Implicant} (wf : a.WellFormed) :
    a.literalCount = (List.range a.width).countP a.care.getLsbD := by
  have fits : a.width ≤ 32 := wf.width_le
  have split : List.range 32 =
      List.range a.width ++ (List.range (32 - a.width)).map (a.width + ·) := by
    rw [← List.range_add, Nat.add_sub_cancel' fits]
  rw [literalCount, countOnes, split, List.countP_append, Nat.add_eq_left, List.countP_eq_zero]
  intro i member cared
  obtain ⟨offset, _, rfl⟩ := List.mem_map.mp member
  exact absurd (wf.lt_width _ cared) (Nat.not_lt.mpr (Nat.le_add_right _ _))

theorem literalCount_le {a : Implicant} (wf : a.WellFormed) : a.literalCount ≤ a.width := by
  rw [literalCount_eq wf]
  exact List.countP_le_length.trans (List.length_range.le)

/-- Clearing a bit that is set leaves one bit less. -/
theorem countOnes_clear {mask : BitVec 32} {position width : Nat}
    (set : mask.getLsbD (width - 1 - position) = true) :
    countOnes (mask &&& ~~~positionMask position width) + 1 = countOnes mask := by
  have low : width - 1 - position < 32 := BitVec.lt_of_getLsbD set
  have member : width - 1 - position ∈ (List.range 32).filter mask.getLsbD :=
    List.mem_filter.mpr ⟨List.mem_range.mpr low, set⟩
  have nodup : ((List.range 32).filter mask.getLsbD).Nodup := List.nodup_range.filter _
  have erased : (List.range 32).filter (mask &&& ~~~positionMask position width).getLsbD =
      ((List.range 32).filter mask.getLsbD).erase (width - 1 - position) := by
    rw [nodup.erase_eq_filter, List.filter_filter]
    refine List.filter_congr fun i _ => ?_
    rw [getLsbD_and_not_positionMask, Bool.and_comm, bne, Bool.beq_eq_decide_eq]
    simp only [eq_comm]
  rw [countOnes, countOnes, List.countP_eq_length_filter, List.countP_eq_length_filter, erased,
    List.length_erase_of_mem member]
  exact Nat.sub_add_cancel (List.length_pos_of_mem member)

/-- Freeing a fixed position takes one literal away. -/
theorem literalCount_expand {a : Implicant} {position : Nat}
    (fixed : a.isFixed position = true) :
    (a.expand position).literalCount + 1 = a.literalCount :=
  countOnes_clear fixed

theorem literalCount_lowerHalf {a : Implicant} (wf : a.WellFormed) {position : Nat}
    (inside : position < a.width) (open' : a.isFixed position = false) :
    (a.lowerHalf position).literalCount = a.literalCount + 1 := by
  have fixed : (a.lowerHalf position).isFixed position = true := by
    rw [isFixed_lowerHalf wf inside, decide_eq_true rfl, Bool.or_true]
  rw [← literalCount_expand fixed, expand_lowerHalf wf inside open']

/-- Without literals no position is fixed. -/
theorem isFixed_of_literalCount_eq_zero {a : Implicant} (wf : a.WellFormed)
    (none : a.literalCount = 0) (position : Nat) : a.isFixed position = false := by
  rw [literalCount_eq wf, List.countP_eq_zero] at none
  by_contra fixed
  have cared : a.care.getLsbD (a.width - 1 - position) = true := Bool.not_eq_false _ ▸ fixed
  exact none _ (List.mem_range.mpr (wf.lt_width _ cared)) cared

/-- With fewer literals than positions some position is free, and there is a last such one. -/
theorem exists_last_free {a : Implicant} (wf : a.WellFormed) (fewer : a.literalCount < a.width) :
    ∃ position < a.width, a.isFixed position = false ∧
      ∀ later, position < later → later < a.width → a.isFixed later = true := by
  have free : ∃ i, i < a.width ∧ a.care.getLsbD i = false := by
    by_contra all
    simp only [not_exists, not_and, Bool.not_eq_false] at all
    have every : (List.range a.width).countP a.care.getLsbD = (List.range a.width).length :=
      List.countP_eq_length.mpr fun i member => all i (List.mem_range.mp member)
    rw [literalCount_eq wf, every, List.length_range] at fewer
    exact lt_irrefl _ fewer
  classical
  have lowest := Nat.find_spec free
  refine ⟨a.width - 1 - Nat.find free, by omega, ?_, fun later after inside => ?_⟩
  · have mirrored : a.width - 1 - (a.width - 1 - Nat.find free) = Nat.find free := by omega
    rw [isFixed, mirrored]
    exact lowest.2
  · have earlier : a.width - 1 - later < Nat.find free := by omega
    by_contra open'
    exact Nat.find_min free earlier ⟨by omega, Bool.not_eq_true _ ▸ open'⟩

/-! ## The rows of a cube, listed -/

theorem testBit_eq_false_iff_lt {row n : Nat} (inside : row < 2 ^ (n + 1)) :
    row.testBit n = false ↔ row < 2 ^ n := by
  constructor
  · intro clear
    by_contra high
    have split : row = 2 ^ n + (row - 2 ^ n) := (Nat.add_sub_cancel' (Nat.le_of_not_lt high)).symm
    have rest : row - 2 ^ n < 2 ^ n := by
      rw [pow_succ] at inside
      omega
    rw [split, Nat.testBit_two_pow_add_eq, Nat.testBit_lt_two_pow rest] at clear
    cases clear
  · exact Nat.testBit_lt_two_pow

theorem mem_coveredBelow {a : Implicant} {n row : Nat} :
    row ∈ a.coveredBelow n ↔
      row < 2 ^ n ∧ ∀ i < n, a.care.getLsbD i = true → row.testBit i = a.value.getLsbD i := by
  induction n generalizing row with
  | zero => simp [coveredBelow]
  | succ n ih =>
      have lower : row ∈ a.coveredBelow n ↔ row.testBit n = false ∧ row < 2 ^ (n + 1) ∧
          ∀ i < n, a.care.getLsbD i = true → row.testBit i = a.value.getLsbD i := by
        rw [ih, ← and_assoc]
        refine and_congr_left fun _ => ⟨fun low => ?_, fun both => ?_⟩
        · have inside := low.trans (Nat.pow_lt_pow_right Nat.one_lt_two n.lt_succ_self)
          exact ⟨(testBit_eq_false_iff_lt inside).mpr low, inside⟩
        · exact (testBit_eq_false_iff_lt both.2).mp both.1
      have upper : row ∈ (a.coveredBelow n).map ((1 <<< n) + ·) ↔
          row.testBit n = true ∧ row < 2 ^ (n + 1) ∧
            ∀ i < n, a.care.getLsbD i = true → row.testBit i = a.value.getLsbD i := by
        rw [List.mem_map, Nat.one_shiftLeft]
        constructor
        · rintro ⟨rest, member, rfl⟩
          obtain ⟨low, agree⟩ := ih.mp member
          refine ⟨?_, by rw [pow_succ]; omega, fun i below cared => ?_⟩
          · rw [Nat.testBit_two_pow_add_eq, Nat.testBit_lt_two_pow low, Bool.not_false]
          · rw [Nat.testBit_two_pow_add_gt below, agree i below cared]
        · rintro ⟨set, inside, agree⟩
          have high : 2 ^ n ≤ row := by
            by_contra low
            rw [Nat.testBit_lt_two_pow (Nat.lt_of_not_le low)] at set
            cases set
          have split : 2 ^ n + (row - 2 ^ n) = row := Nat.add_sub_cancel' high
          refine ⟨row - 2 ^ n, ih.mpr ⟨?_, fun i below cared => ?_⟩, split⟩
          · rw [pow_succ] at inside
            omega
          · rw [← agree i below cared, ← split, Nat.testBit_two_pow_add_gt below, split]
      have last : (∀ i < n + 1, a.care.getLsbD i = true → row.testBit i = a.value.getLsbD i) ↔
          (a.care.getLsbD n = true → row.testBit n = a.value.getLsbD n) ∧
            ∀ i < n, a.care.getLsbD i = true → row.testBit i = a.value.getLsbD i := by
        simp only [Nat.lt_succ_iff_lt_or_eq, or_imp, forall_and, forall_eq]
        exact and_comm
      rw [coveredBelow, last]
      cases a.care.getLsbD n with
      | true =>
          cases a.value.getLsbD n with
          | true =>
              simp only [if_true, upper, forall_const]
              exact and_left_comm
          | false =>
              simp only [if_true, Bool.false_eq_true, if_false, lower, forall_const]
              exact and_left_comm
      | false =>
          simp only [Bool.false_eq_true, if_false, List.mem_append, lower, upper, false_imp_iff,
            true_and, ← or_and_right]
          exact and_iff_right (Bool.eq_false_or_eq_true _).symm

/-- The listed rows are the rows covered. -/
theorem mem_covered {a : Implicant} (wf : a.WellFormed) {row : Nat} :
    row ∈ a.covered ↔ row < 2 ^ a.width ∧ a.covers row = true := by
  rw [covered, mem_coveredBelow, covers_iff wf]
  refine and_congr_right fun _ => ?_
  exact ⟨fun agree i cared => agree i (wf.lt_width i cared) cared,
    fun agree i _ cared => agree i cared⟩

end SwitchingLogic.Implicant
