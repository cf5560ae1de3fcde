import Mathlib.Data.List.Nodup
import Mathlib.Data.List.Perm.Basic
import Mathlib.Data.Nat.Prime.Basic
import SwitchingLogic.Karnaugh.Rectangle

/-!
# Rectangles on a torus

A rectangle is walked through from its first corner, row by row and across the borders.  It has each
of its places once, and these lie in the grid.  The rectangles that are gone through are all those
with powers of two for their sides, single places among them, and none is larger than one before it.
-/

namespace SwitchingLogic.Karnaugh

theorem mem_arc {n start length i : Nat} :
    i ∈ arc n start length ↔ i < n ∧ (i + n - start) % n < length := by
  simp [arc]

theorem nodup_arc (n start length : Nat) : (arc n start length).Nodup :=
  List.nodup_range.filter _

/-- An arc is walked through from its starting point. -/
theorem arc_perm {n start length : Nat} (inside : start < n) (fits : length ≤ n) :
    (arc n start length).Perm ((List.range length).map fun k => (start + k) % n) := by
  have back {k : Nat} (below : k < length) : ((start + k) % n + n - start) % n = k := by
    rcases Nat.lt_or_ge (start + k) n with before | after
    · have whole : start + k + n - start = k + n := by omega
      rw [Nat.mod_eq_of_lt before, whole, Nat.add_mod_right, Nat.mod_eq_of_lt (below.trans_le fits)]
    · have once : start + k - n < n := by omega
      have whole : start + k - n + n - start = k := by omega
      rw [Nat.mod_eq_sub_mod after, Nat.mod_eq_of_lt once, whole,
        Nat.mod_eq_of_lt (below.trans_le fits)]
  have walk : ((List.range length).map fun k => (start + k) % n).Nodup := by
    refine List.Nodup.map_on (fun k first k' second same => ?_) List.nodup_range
    rw [← back (List.mem_range.mp first), ← back (List.mem_range.mp second), same]
  refine (List.perm_ext_iff_of_nodup (nodup_arc _ _ _) walk).mpr fun i => ?_
  rw [mem_arc, List.mem_map]
  constructor
  · rintro ⟨below, near⟩
    refine ⟨(i + n - start) % n, List.mem_range.mpr near, ?_⟩
    have whole : start + (i + n - start) = i + n := by omega
    rw [Nat.add_mod_mod, whole, Nat.add_mod_right, Nat.mod_eq_of_lt below]
  · rintro ⟨k, below, rfl⟩
    rw [List.mem_range] at below
    exact ⟨Nat.mod_lt _ (by omega), by rwa [back below]⟩

/-- The arc of length one is its starting point. -/
theorem arc_one {n start : Nat} (inside : start < n) : arc n start 1 = [start] := by
  have walk := arc_perm inside (Nat.succ_le_of_lt (Nat.zero_lt_of_lt inside))
  rw [List.range_one, List.map_singleton, Nat.add_zero, Nat.mod_eq_of_lt inside] at walk
  exact List.perm_singleton.mp walk

section Rectangles

variable {rows columns : Nat}

theorem mem_rectangle {top left height width : Nat} {place : Place} :
    place ∈ rectangle rows columns top left height width ↔
      place.1 ∈ arc rows top height ∧ place.2 ∈ arc columns left width := by
  simp [rectangle, Prod.ext_iff, and_comm, and_left_comm]

theorem nodup_rectangle (top left height width : Nat) :
    (rectangle rows columns top left height width).Nodup := by
  refine List.nodup_flatMap.mpr ⟨fun row _ => ?_, ?_⟩
  · exact (nodup_arc _ _ _).map fun i j same => (Prod.ext_iff.mp same).2
  · refine (nodup_arc _ _ _).imp fun other place first second => ?_
    obtain ⟨_, _, rfl⟩ := List.mem_map.mp first
    obtain ⟨_, _, same⟩ := List.mem_map.mp second
    exact other (Prod.ext_iff.mp same).1.symm

def spanned (rows columns top left height width : Nat) : List Place :=
  (List.range height).flatMap fun i =>
    (List.range width).map fun j => ((top + i) % rows, (left + j) % columns)

theorem length_spanned (top left height width : Nat) :
    (spanned rows columns top left height width).length = height * width := by
  simp [spanned, List.length_flatMap]

/-- The first corner may be given beyond the borders. -/
theorem spanned_mod (top left height width : Nat) :
    spanned rows columns (top % rows) (left % columns) height width =
      spanned rows columns top left height width := by
  simp only [spanned, Nat.mod_add_mod]

theorem rectangle_perm {top left height width : Nat} (row : top < rows) (column : left < columns)
    (height_le : height ≤ rows) (width_le : width ≤ columns) :
    (rectangle rows columns top left height width).Perm
      (spanned rows columns top left height width) := by
  have columnsWalk := arc_perm column width_le
  have rowsWalk := arc_perm row height_le
  rw [rectangle, spanned]
  refine (rowsWalk.flatMap_right _).trans ?_
  rw [List.flatMap_map]
  refine List.Perm.flatMap_left _ fun i _ => ?_
  have walk := columnsWalk.map fun j => ((top + i) % rows, j)
  rwa [List.map_map] at walk

theorem mem_powersDownFrom {n k : Nat} : k ∈ powersDownFrom n ↔ k.isPowerOfTwo ∧ k ≤ n := by
  rw [powersDownFrom]
  split
  · rename_i none'
    refine iff_of_false nofun ?_
    rintro ⟨⟨p, rfl⟩, small⟩
    exact absurd (Nat.two_pow_pos p) (by omega)
  · rename_i some'
    simp only [List.mem_map, List.mem_reverse, List.mem_range, Nat.one_shiftLeft, Nat.lt_succ_iff,
      Nat.le_log2 some']
    constructor
    · rintro ⟨p, small, rfl⟩
      exact ⟨⟨p, rfl⟩, small⟩
    · rintro ⟨⟨p, rfl⟩, small⟩
      exact ⟨p, small, rfl⟩

theorem pairwise_powersDownFrom (n : Nat) : (powersDownFrom n).Pairwise fun a b => b ≤ a := by
  rw [powersDownFrom]
  split
  · exact List.Pairwise.nil
  · rw [List.pairwise_map, List.pairwise_reverse]
    refine List.pairwise_lt_range.imp fun before => ?_
    rw [Nat.one_shiftLeft, Nat.one_shiftLeft]
    exact Nat.pow_le_pow_right (by decide) before.le

theorem mem_shapes {size height width : Nat} :
    (height, width) ∈ shapes rows columns size ↔
      height.isPowerOfTwo ∧ height ≤ rows ∧ width ≤ columns ∧ height * width = size := by
  simp only [shapes, List.mem_filterMap, mem_powersDownFrom]
  constructor
  · rintro ⟨height', ⟨power, low⟩, shape⟩
    split at shape
    · rename_i both
      cases shape
      exact ⟨power, low, both.2, both.1⟩
    · cases shape
  · rintro ⟨⟨p, rfl⟩, low, narrow, rfl⟩
    have quotient : 2 ^ p * width / 2 ^ p = width := Nat.mul_div_cancel_left _ (Nat.two_pow_pos p)
    exact ⟨2 ^ p, ⟨⟨p, rfl⟩, low⟩, by rw [quotient]; exact if_pos ⟨rfl, narrow⟩⟩

/-- The rectangles that are gone through, as rectangles with powers of two for their sides. -/
theorem mem_rectangles {places : List Place} :
    places ∈ rectangles rows columns ↔
      ∃ top < rows, ∃ left < columns, ∃ height width,
        (height.isPowerOfTwo ∧ width.isPowerOfTwo ∧ height ≤ rows ∧ width ≤ columns) ∧
          places = rectangle rows columns top left height width := by
  simp only [rectangles, rectanglesOf, List.mem_flatMap, List.mem_map, List.mem_range, Prod.exists,
    mem_shapes, mem_powersDownFrom]
  constructor
  · rintro ⟨height, width, ⟨size, ⟨⟨p, power⟩, _⟩, heightPower, low, narrow, product⟩, top, row,
      left, column, rfl⟩
    have divides : width ∣ 2 ^ p := ⟨height, by rw [← power, ← product, Nat.mul_comm]⟩
    obtain ⟨q, _, widthPower⟩ := (Nat.dvd_prime_pow Nat.prime_two).mp divides
    exact ⟨top, row, left, column, height, width, ⟨heightPower, ⟨q, widthPower⟩, low, narrow⟩, rfl⟩
  · rintro ⟨top, row, left, column, height, width, ⟨⟨p, rfl⟩, ⟨q, rfl⟩, low, narrow⟩, rfl⟩
    exact ⟨2 ^ p, 2 ^ q, ⟨2 ^ p * 2 ^ q, ⟨⟨p + q, (pow_add 2 p q).symm⟩, Nat.mul_le_mul low narrow⟩,
      ⟨p, rfl⟩, low, narrow, rfl⟩, top, row, left, column, rfl⟩

theorem singleton_mem_rectangles {place : Place} (row : place.1 < rows)
    (column : place.2 < columns) : [place] ∈ rectangles rows columns := by
  have one : Nat.isPowerOfTwo 1 := ⟨0, rfl⟩
  refine mem_rectangles.mpr
    ⟨place.1, row, place.2, column, 1, 1, ⟨one, one, by omega, by omega⟩, ?_⟩
  rw [rectangle, arc_one row, arc_one column]
  rfl

/-- Larger rectangles come first. -/
theorem pairwise_rectangles (rows columns : Nat) :
    (rectangles rows columns).Pairwise fun a b => b.length ≤ a.length := by
  have size {n : Nat} {places : List Place}
      (member : places ∈ (shapes rows columns n).flatMap (rectanglesOf rows columns)) :
      places.length = n := by
    simp only [rectanglesOf, List.mem_flatMap, List.mem_map, List.mem_range, Prod.exists,
      mem_shapes] at member
    obtain ⟨height, width, ⟨_, low, narrow, rfl⟩, top, row, left, column, rfl⟩ := member
    rw [(rectangle_perm row column low narrow).length_eq, length_spanned]
  rw [rectangles, List.flatMap_assoc, List.pairwise_flatMap]
  constructor
  · intro n _
    refine List.pairwise_of_forall_mem_list fun a first b second => ?_
    rw [size first, size second]
  · refine (pairwise_powersDownFrom _).imp fun down a first b second => ?_
    rwa [size first, size second]

end Rectangles

end SwitchingLogic.Karnaugh
