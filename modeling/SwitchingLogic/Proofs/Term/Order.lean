import SwitchingLogic.Proofs.Lists.Distinct
import SwitchingLogic.Proofs.Term.Values

/-!
# The order of display

Terms are compared by the places of their variables, and terms without conflict on a par are equal.
So a list of such terms is displayed in one way only, in whatever order it was found.
-/

namespace SwitchingLogic

/-- Terms are compared variable by variable. -/
theorem transCmp_compareOn (vs : List Variable) :
    Std.TransCmp fun s t : Term => Term.compareOn s t vs := by
  induction vs with
  | nil =>
      exact inferInstanceAs (Std.TransCmp (compareOn fun _ : Term => ()))
  | cons v rest ih =>
      exact inferInstanceAs (Std.TransCmp (compareLex (compareOn fun t : Term => t.rank v)
        fun s t : Term => Term.compareOn s t rest))

instance : Std.TransCmp Term.displayOrder := transCmp_compareOn Variable.all

instance : Std.TransCmp Term.sizeOrder :=
  inferInstanceAs (Std.TransCmp (compareLex (compareOn Term.literalCount) Term.displayOrder))

namespace Term

variable {s t : Term}

theorem compareOn_eq_eq_iff {vs : List Variable} :
    s.compareOn t vs = .eq ↔ ∀ v ∈ vs, s.rank v = t.rank v := by
  induction vs with
  | nil => simp [compareOn]
  | cons v rest ih =>
      rw [compareOn, Ordering.then_eq_eq, Nat.compare_eq_eq, ih, List.forall_mem_cons]

/-- Without conflict the place of a variable tells the value to which it is fixed. -/
theorem fixes_iff_rank (consistent : t.hasConflict = false) (v : Variable) (value : Bool) :
    t.fixes v value = true ↔ t.rank v = if value then 0 else 1 := by
  have apart : ¬ (t.positive.contains v = true ∧ t.negative.contains v = true) := fun both =>
    Bool.noConfusion (((hasConflict_iff t).mpr ⟨v, both⟩).symm.trans consistent)
  rw [rank, fixes]
  cases value <;> cases positive : t.positive.contains v <;>
    cases negative : t.negative.contains v <;> simp_all

/-- Terms without conflict on a par are equal. -/
theorem eq_of_displayOrder (consistent : s.hasConflict = false)
    (consistent' : t.hasConflict = false) (same : s.displayOrder t = .eq) : s = t := by
  refine ext_fixes fun v value => Bool.eq_iff_iff.mpr ?_
  rw [fixes_iff_rank consistent, fixes_iff_rank consistent',
    compareOn_eq_eq_iff.mp same v v.mem_all]

theorem eq_of_isLE_sizeOrder (consistent : s.hasConflict = false)
    (consistent' : t.hasConflict = false) (below : (sizeOrder s t).isLE = true)
    (above : (sizeOrder t s).isLE = true) : s = t := by
  have same := eq_eq_of_isLE below above
  rw [sizeOrder, Ordering.then_eq_eq] at same
  exact eq_of_displayOrder consistent consistent' same.2

section ByTerms

variable {α : Type}

instance transCmp_displayOrder_on (term : α → Term) :
    Std.TransCmp fun a b => displayOrder (term a) (term b) where
  eq_swap := Std.OrientedCmp.eq_swap
  isLE_trans := Std.TransCmp.isLE_trans

/-- What is known by a term without conflict is sorted in one way only, in any order that decides by
the terms in the end. -/
theorem mergeSort_eq_of_terms (cmp : α → α → Ordering) [Std.TransCmp cmp] (term : α → Term)
    (decides : ∀ a b, cmp a b = .eq → displayOrder (term a) (term b) = .eq) {xs ys : List α}
    (known : ∀ a ∈ xs, ∀ b ∈ xs, term a = term b → a = b)
    (consistent : ∀ a ∈ xs, (term a).hasConflict = false) (same : ys.Perm xs) :
    (ys.mergeSort fun a b => (cmp a b).isLE) = xs.mergeSort fun a b => (cmp a b).isLE := by
  have members (zs : List α) := List.mergeSort_perm zs fun a b => (cmp a b).isLE
  have sorted := (members ys).trans (same.trans (members xs).symm)
  refine sorted.eq_of_pairwise (fun a b first second below above => ?_)
    (pairwise_mergeSort_isLE cmp ys) (pairwise_mergeSort_isLE cmp xs)
  have left : a ∈ xs := same.mem_iff.mp ((members ys).mem_iff.mp first)
  have right : b ∈ xs := (members xs).mem_iff.mp second
  have tie := decides a b (eq_eq_of_isLE below above)
  exact known a left b right (eq_of_displayOrder (consistent a left) (consistent b right) tie)

end ByTerms

/-- The same terms are sorted into the same list. -/
theorem sort_eq_of_perm {ts us : List Term} (consistent : ∀ t ∈ ts, t.hasConflict = false)
    (same : us.Perm ts) : sort us = sort ts :=
  mergeSort_eq_of_terms sizeOrder id (fun _ _ tie => (Ordering.then_eq_eq.mp tie).2)
    (fun _ _ _ _ equal => equal) consistent same

theorem sort_perm (ts : List Term) : (sort ts).Perm ts :=
  List.mergeSort_perm _ _

theorem pairwise_sort (ts : List Term) :
    (sort ts).Pairwise fun s t => (sizeOrder s t).isLE = true :=
  pairwise_mergeSort_isLE sizeOrder ts

/-- Different terms without conflict come one strictly before the other. -/
theorem pairwise_lt_sort {ts : List Term} (distinct : ts.Nodup)
    (consistent : ∀ t ∈ ts, t.hasConflict = false) :
    (sort ts).Pairwise fun s t => sizeOrder s t = .lt := by
  have distinct := (sort_perm ts).nodup_iff.mpr distinct
  refine ((pairwise_sort ts).and distinct).imp_of_mem fun {s t} first second => ?_
  rintro ⟨below, different⟩
  have left := consistent s ((sort_perm ts).mem_iff.mp first)
  have right := consistent t ((sort_perm ts).mem_iff.mp second)
  refine (Ordering.isLE_iff_eq_lt_or_eq_eq.mp below).resolve_right fun same => different ?_
  exact eq_of_isLE_sizeOrder left right below
    (Ordering.isLE_of_eq_eq (Std.OrientedCmp.eq_symm same))

end Term

end SwitchingLogic
