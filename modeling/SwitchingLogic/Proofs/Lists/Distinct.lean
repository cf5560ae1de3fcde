import Mathlib.Data.List.Nodup
import Mathlib.Data.List.Sort
import Std.Data.HashSet.Lemmas

/-!
# Sorted lists and lists without repetitions

A sorted list of numbers is known by its members and how often they occur.  When repetitions are
erased, each value stays where it turns up first.
-/

namespace SwitchingLogic

theorem pairwise_mergeSort_le (xs : List Nat) : xs.mergeSort.Pairwise (· ≤ ·) :=
  (List.pairwise_mergeSort (fun x y z => by simpa using le_trans) (fun x y => by
    simpa using le_total x y) xs).imp of_decide_eq_true

theorem mergeSort_eq_of_perm {xs ys : List Nat} (same : xs.Perm ys) :
    xs.mergeSort = ys.mergeSort :=
  List.Perm.eq_of_pairwise (fun _ _ _ _ => le_antisymm) (pairwise_mergeSort_le xs)
    (pairwise_mergeSort_le ys)
    ((List.mergeSort_perm _ _).trans (same.trans (List.mergeSort_perm _ _).symm))

/-- Two values, none of which is greater than the other one, are on a par. -/
theorem eq_eq_of_isLE {α : Type} {cmp : α → α → Ordering} [Std.OrientedCmp cmp] {a b : α}
    (below : (cmp a b).isLE = true) (above : (cmp b a).isLE = true) : cmp a b = .eq := by
  rw [← Std.OrientedCmp.isGE_iff_isLE] at above
  exact Ordering.eq_eq_of_isLE_of_isGE below above

theorem pairwise_mergeSort_isLE {α : Type} (cmp : α → α → Ordering) [Std.TransCmp cmp]
    (xs : List α) :
    (xs.mergeSort fun a b => (cmp a b).isLE).Pairwise fun a b => (cmp a b).isLE = true := by
  refine List.pairwise_mergeSort (fun a b c => Std.TransCmp.isLE_trans) (fun a b => ?_) xs
  rw [Bool.or_eq_true, ← Std.OrientedCmp.isGE_iff_isLE (a := a)]
  cases cmp a b with
  | lt => exact Or.inl rfl
  | eq => exact Or.inl rfl
  | gt => exact Or.inr rfl

theorem eraseDups_sublist {α : Type} [BEq α] (xs : List α) : xs.eraseDups.Sublist xs := by
  generalize size : xs.length = n
  induction n using Nat.strong_induction_on generalizing xs with
  | h n ih =>
      cases xs with
      | nil => exact List.Sublist.refl []
      | cons x rest =>
          have shorter : (rest.filter fun y => !y == x).length < n :=
            size ▸ Nat.lt_succ_of_le (List.length_filter_le _ _)
          rw [List.eraseDups_cons]
          exact ((ih _ shorter _ rfl).trans List.filter_sublist).cons_cons x

variable {α : Type} [BEq α] [LawfulBEq α]

theorem nodup_hashSet_toList [Hashable α] (set : Std.HashSet α) : set.toList.Nodup :=
  Std.HashSet.distinct_toList.imp fun distinct => ne_of_beq_false distinct

theorem nodup_eraseDups (xs : List α) : xs.eraseDups.Nodup := by
  generalize size : xs.length = n
  induction n using Nat.strong_induction_on generalizing xs with
  | h n ih =>
      cases xs with
      | nil => exact List.nodup_nil
      | cons x rest =>
          have shorter : (rest.filter fun y => !y == x).length < n :=
            size ▸ Nat.lt_succ_of_le (List.length_filter_le _ _)
          rw [List.eraseDups_cons, List.nodup_cons, List.mem_eraseDups, List.mem_filter]
          exact ⟨by simp, ih _ shorter _ rfl⟩

theorem eraseDups_of_nodup {xs : List α} (distinct : xs.Nodup) : xs.eraseDups = xs := by
  induction xs with
  | nil => rfl
  | cons x rest ih =>
      obtain ⟨new, distinct⟩ := List.nodup_cons.mp distinct
      have others : (rest.filter fun y => !y == x) = rest := by
        refine List.filter_eq_self.mpr fun y member => ?_
        rw [Bool.not_eq_true', beq_eq_false_iff_ne]
        rintro rfl
        exact new member
      rw [List.eraseDups_cons, others, ih distinct]

/-- A value is listed where it turns up first. -/
theorem pairwise_eraseDups_map (g : Nat → α) {xs : List Nat} (sorted : xs.Pairwise (· < ·)) :
    (xs.map g).eraseDups.Pairwise fun a b =>
      ∃ x ∈ xs, g x = a ∧ ∀ y ∈ xs, g y = b → x < y := by
  generalize size : xs.length = n
  induction n using Nat.strong_induction_on generalizing xs with
  | h n ih =>
      cases xs with
      | nil => exact List.Pairwise.nil
      | cons x rest =>
          obtain ⟨first, sortedRest⟩ := List.pairwise_cons.mp sorted
          have shorter : (rest.filter fun y => !g y == g x).length < n :=
            size ▸ Nat.lt_succ_of_le (List.length_filter_le _ _)
          have others : (rest.map g).filter (fun b => !b == g x) =
              (rest.filter fun y => !g y == g x).map g := List.filter_map
          rw [List.map_cons, List.eraseDups_cons, others, List.pairwise_cons]
          have other {b : α} (member : b ∈ ((rest.filter fun y => !g y == g x).map g).eraseDups) :
              b ≠ g x := by
            obtain ⟨y, listed, rfl⟩ := List.mem_map.mp (List.mem_eraseDups.mp member)
            simpa using (List.mem_filter.mp listed).2
          constructor
          · intro b member
            refine ⟨x, List.mem_cons_self, rfl, fun y listed same => ?_⟩
            rcases List.mem_cons.mp listed with rfl | later
            · exact absurd same.symm (other member)
            · exact first y later
          · refine (ih _ shorter (sortedRest.filter _) rfl).imp_of_mem ?_
            rintro a b _ second ⟨y, listed, same, before⟩
            refine ⟨y, List.mem_cons_of_mem _ (List.mem_filter.mp listed).1, same,
              fun z inside here => ?_⟩
            rcases List.mem_cons.mp inside with rfl | later
            · exact absurd here.symm (other second)
            · exact before z (List.mem_filter.mpr ⟨later, by simp [here, other second]⟩) here

end SwitchingLogic
