import Mathlib.Data.Finset.Card
import SwitchingLogic.Proofs.Implicant.Hull
import SwitchingLogic.Proofs.Implicant.Tables
import SwitchingLogic.Proofs.Implicant.Terms

/-!
# Sets of rows

A cube is known by the set of its rows.  One cube contains another one when its rows are among
them, and two cubes unite when they are the halves of a third one.  Over as many variables the term
and the product of the cube are true in the states of its rows.
-/

namespace SwitchingLogic.Implicant

variable {a b c : Implicant}

def rowSet (a : Implicant) : Finset Nat :=
  (Finset.range (2 ^ a.width)).filter fun row => a.covers row = true

theorem mem_rowSet {row : Nat} : row ∈ a.rowSet ↔ row < 2 ^ a.width ∧ a.covers row = true := by
  rw [rowSet, Finset.mem_filter, Finset.mem_range]

theorem card_rowSet (wf : a.WellFormed) : a.rowSet.card = 2 ^ (a.width - a.literalCount) := by
  have listed : a.rowSet = a.covered.toFinset := by
    ext row
    rw [mem_rowSet, List.mem_toFinset, mem_covered wf]
  have nodup : a.covered.Nodup := a.nodup_coveredBelow a.width
  rw [listed, List.toFinset_card_of_nodup nodup, length_covered wf]

/-- The row of a cube with chosen bits at the free places. -/
def fill (a : Implicant) (choice : Nat → Bool) : Nat :=
  Nat.ofBits fun i : Fin a.width => if a.care.getLsbD i then a.value.getLsbD i else choice i

theorem testBit_fill (a : Implicant) (choice : Nat → Bool) {i : Nat} (low : i < a.width) :
    (a.fill choice).testBit i = if a.care.getLsbD i then a.value.getLsbD i else choice i :=
  Nat.testBit_ofBits_lt _ i low

theorem fill_mem_rowSet (wf : a.WellFormed) (choice : Nat → Bool) : a.fill choice ∈ a.rowSet := by
  refine mem_rowSet.mpr ⟨Nat.ofBits_lt_two_pow _, (covers_iff wf _).mpr fun i cared => ?_⟩
  rw [testBit_fill a choice (wf.lt_width i cared), if_pos cared]

theorem contains_iff_subset (wf : a.WellFormed) (wf' : b.WellFormed) (same : a.width = b.width) :
    a.contains b = true ↔ b.rowSet ⊆ a.rowSet := by
  constructor
  · intro inside row member
    obtain ⟨low, covered⟩ := mem_rowSet.mp member
    exact mem_rowSet.mpr ⟨same ▸ low, covers_of_contains wf wf' inside covered⟩
  · intro inside
    have member := inside (fill_mem_rowSet wf' fun i => !a.value.getLsbD i)
    have agree := (covers_iff wf _).mp (mem_rowSet.mp member).2
    refine (contains_iff wf).mpr fun i cared => ?_
    have bit := agree i cared
    rw [testBit_fill b _ (same ▸ wf.lt_width i cared)] at bit
    cases fixed : b.care.getLsbD i with
    | true =>
        rw [fixed, if_pos rfl] at bit
        exact ⟨rfl, bit⟩
    | false =>
        rw [fixed, if_neg Bool.false_ne_true] at bit
        exact absurd bit (Bool.not_ne_self _)

/-- Cubes with the same rows are equal. -/
theorem eq_of_rowSet_eq (wf : a.WellFormed) (wf' : b.WellFormed) (same : a.width = b.width)
    (rows : a.rowSet = b.rowSet) : a = b := by
  have wide := (contains_iff wf).mp ((contains_iff_subset wf wf' same).mpr rows.ge)
  have narrow := (contains_iff wf').mp ((contains_iff_subset wf' wf same.symm).mpr rows.le)
  have care (i : Nat) : a.care.getLsbD i = b.care.getLsbD i :=
    Bool.eq_iff_iff.mpr ⟨fun cared => (wide i cared).1, fun cared => (narrow i cared).1⟩
  refine ext_bits same (fun i _ => ?_) fun i _ => care i
  cases cared : a.care.getLsbD i with
  | true => exact (wide i cared).2.symm
  | false => rw [wf.value_eq_false cared, wf'.value_eq_false ((care i).symm.trans cared)]

section Neighbours

variable {position : Nat}

theorem rowSet_expand (wf : a.WellFormed) (inside : position < a.width)
    (fixed : a.isFixed position = true) :
    (a.expand position).rowSet = a.rowSet ∪ (a.opposite position).rowSet := by
  ext row
  rw [Finset.mem_union, mem_rowSet, mem_rowSet, mem_rowSet, covers_expand_iff_or wf inside fixed]
  exact and_or_left

theorem disjoint_opposite (wf : a.WellFormed) (inside : position < a.width)
    (fixed : a.isFixed position = true) : Disjoint a.rowSet (a.opposite position).rowSet := by
  refine Finset.disjoint_left.mpr fun row near far => ?_
  have bit := (covers_iff wf row).mp (mem_rowSet.mp near).2 _ fixed
  have bit' := (covers_iff (wf.opposite inside fixed) row).mp (mem_rowSet.mp far).2 _ fixed
  rw [value_opposite wf inside, decide_eq_true rfl, Bool.xor_true, bit] at bit'
  exact Bool.not_ne_self _ bit'.symm

theorem card_opposite (wf : a.WellFormed) (inside : position < a.width)
    (fixed : a.isFixed position = true) : (a.opposite position).rowSet.card = a.rowSet.card := by
  rw [card_rowSet (wf.opposite inside fixed), card_rowSet wf]
  rfl

end Neighbours

structure Halves (a b c : Implicant) : Prop where
  masked : c.Masked
  width_eq : c.width = a.width
  apart : Disjoint a.rowSet b.rowSet
  card_eq : a.rowSet.card = b.rowSet.card
  union_eq : a.rowSet ∪ b.rowSet = c.rowSet

theorem halves_expand (wf : a.WellFormed) {position : Nat} (inside : position < a.width)
    (fixed : a.isFixed position = true) :
    Halves a (a.opposite position) (a.expand position) where
  masked := wf.masked.expanded position
  width_eq := rfl
  apart := disjoint_opposite wf inside fixed
  card_eq := (card_opposite wf inside fixed).symm
  union_eq := (rowSet_expand wf inside fixed).symm

theorem Halves.card (halves : Halves a b c) : c.rowSet.card = a.rowSet.card + a.rowSet.card := by
  rw [← halves.union_eq, Finset.card_union_of_disjoint halves.apart, halves.card_eq]

/-- A cube has one other half. -/
theorem Halves.rowSet_eq (halves : Halves a b c) : b.rowSet = c.rowSet \ a.rowSet := by
  rw [← halves.union_eq, Finset.union_sdiff_cancel_left halves.apart]

/-- A cube goes on containing another one when a position is freed that it does not fix. -/
theorem contains_expand (wf : c.WellFormed) (same : c.width = a.width)
    (inside : c.contains a = true) {position : Nat} (freed : c.isFixed position = false) :
    c.contains (a.expand position) = true := by
  refine (contains_iff wf).mpr fun i cared => ?_
  have other : ¬ a.width - 1 - position = i := by
    rintro rfl
    rw [isFixed, same, cared] at freed
    cases freed
  rw [care_expand, value_expand, decide_eq_false other, Bool.not_false, Bool.and_true,
    Bool.and_true]
  exact (contains_iff wf).mp inside i cared

/-- A cube with more rows leaves a position free that a cube inside it fixes. -/
theorem exists_freed (wf : a.WellFormed) (wf' : c.WellFormed) (same : c.width = a.width)
    (inside : c.contains a = true) (more : a.rowSet.card < c.rowSet.card) :
    ∃ position < a.width, a.isFixed position = true ∧ c.isFixed position = false := by
  by_contra none
  push Not at none
  have agree := (contains_iff wf').mp inside
  have fixed : a.contains c = true := by
    refine (contains_iff wf).mpr fun i cared => ?_
    have low := wf.lt_width i cared
    have mirrored : a.width - 1 - (a.width - 1 - i) = i := by omega
    have freed := none (a.width - 1 - i) (by omega)
    rw [isFixed, isFixed, same, mirrored, Bool.ne_false_iff] at freed
    exact ⟨freed cared, (agree i (freed cared)).2.symm⟩
  have fewer := Finset.card_le_card ((contains_iff_subset wf wf' same.symm).mp fixed)
  exact absurd more (Nat.not_lt.mpr fewer)

/-- Two cubes unite to the cube of which they are the halves. -/
theorem merge?_eq_some_iff_halves (wf : a.WellFormed) (wf' : b.WellFormed)
    (same : a.width = b.width) : a.merge? b = some c ↔ Halves a b c := by
  rw [merge?_eq_some_iff wf wf']
  constructor
  · rintro ⟨position, inside, fixed, rfl, rfl⟩
    exact halves_expand wf inside fixed
  · intro halves
    -- The whole leaves a position free that the first half fixes.  Freed there, the first half has
    -- as many rows as the whole, and so its neighbour is the second half.
    have whole : c.WellFormed := halves.masked.wellFormed (halves.width_eq ▸ wf.width_le)
    have left : c.contains a = true :=
      (contains_iff_subset whole wf halves.width_eq).mpr
        (halves.union_eq ▸ Finset.subset_union_left)
    have some' : 0 < a.rowSet.card :=
      Finset.card_pos.mpr ⟨_, fill_mem_rowSet wf fun _ => false⟩
    obtain ⟨position, inside, fixed, freed⟩ :=
      exists_freed wf whole halves.width_eq left (by rw [halves.card]; omega)
    have expanded := halves_expand wf inside fixed
    have wider := contains_expand whole halves.width_eq left freed
    have rows : (a.expand position).rowSet = c.rowSet := by
      apply Finset.eq_of_subset_of_card_le
      · exact (contains_iff_subset whole (wf.expand position) halves.width_eq).mp wider
      · exact (halves.card.trans expanded.card.symm).le
    have united : c = a.expand position :=
      (eq_of_rowSet_eq (wf.expand position) whole halves.width_eq.symm rows).symm
    refine ⟨position, inside, fixed, ?_, united⟩
    apply eq_of_rowSet_eq wf' (wf.opposite inside fixed) same.symm
    rw [halves.rowSet_eq, expanded.rowSet_eq, rows]

/-- Every cube that can be made fits its masks, and over up to thirty-two positions such cubes stand
for their rows: in containing one another, in uniting, and as terms and products over variables. -/
theorem masks_exact :
    (∀ a, Made a → a.Masked) ∧
      ∀ a b : Implicant, a.Masked → b.Masked → a.width = b.width → a.width ≤ maxWidth →
        (a.contains b = true ↔ b.rowSet ⊆ a.rowSet) ∧
        (∀ c, a.merge? b = some c ↔ Halves a b c) ∧
        ∀ vs : List Variable, vs.Nodup → vs.length = a.width → ∀ row < 2 ^ a.width,
          (a.toTerm vs).containsState (State.ofIndex row vs) = a.covers row ∧
          (a.toProduct vs).eval (State.ofIndex row vs) = a.covers row := by
  refine ⟨fun a made => made.masked, fun a b masked masked' same fits => ?_⟩
  have wf := masked.wellFormed fits
  have wf' := masked'.wellFormed (same ▸ fits)
  refine ⟨contains_iff_subset wf wf' same, fun c => merge?_eq_some_iff_halves wf wf' same,
    fun vs nodup length row low => ?_⟩
  have stands : a.Over vs := ⟨wf, length.symm⟩
  have read : (State.ofIndex row vs).toIndex vs = row :=
    State.toIndex_ofIndex nodup stands.short (length ▸ low)
  constructor
  · rw [stands.containsState_toTerm nodup, read]
  · rw [eval_toProduct wf nodup length, read]

/-- The last two rows over thirty-two positions are the halves of a cube. -/
theorem halves_last_rows :
    (minterm 4294967294 32).Masked ∧
      Halves (minterm 4294967294 32) (minterm 4294967295 32)
        ⟨0xFFFFFFFE, 0xFFFFFFFE, 32⟩ :=
  ⟨masks_exact.1 _ (.minterm 4294967294 32),
    ((masks_exact.2 _ _ (masks_exact.1 _ (.minterm 4294967294 32))
      (masks_exact.1 _ (.minterm 4294967295 32)) rfl (by decide)).2.1 _).mp (by decide +kernel)⟩

end SwitchingLogic.Implicant
