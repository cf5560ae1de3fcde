import SwitchingLogic.Karnaugh.Map
import SwitchingLogic.Proofs.Implicant.Terms
import SwitchingLogic.Proofs.Term.Order

/-!
# Display by terms

Two terms are compared by the variables that either of them fixes, a different list for each pair.
A variable that neither of them fixes has the same place in both, so that this is the same as
comparing all variables, and the comparisons of different pairs agree with each other.  Terms, cubes
and groups of cells are sorted by size and then by their terms; with different terms there is one
order only in which they can be displayed.
-/

namespace SwitchingLogic

namespace Term

variable {s t : Term} {vs : List Variable}

/-- Compare two terms by the places of the variables that either of them fixes. -/
def compareFixed (s t : Term) : Ordering :=
  let fixed := (s.vars.union t.vars).toList
  compare (fixed.map s.rank) (fixed.map t.rank)

theorem compareOn_eq_compare (s t : Term) (vs : List Variable) :
    s.compareOn t vs = compare (vs.map s.rank) (vs.map t.rank) := by
  rw [List.compare_eq_compareLex]
  induction vs with
  | nil => rfl
  | cons v rest ih => rw [compareOn, ih, List.map_cons, List.map_cons, List.compareLex_cons_cons]

/-- Variables that have the same place in both terms can be left out. -/
theorem compareOn_filter (listed : Variable → Bool)
    (same : ∀ v ∈ vs, listed v = false → s.rank v = t.rank v) :
    s.compareOn t (vs.filter listed) = s.compareOn t vs := by
  induction vs with
  | nil => rfl
  | cons v rest ih =>
      have behind := ih fun w member => same w (List.mem_cons_of_mem v member)
      cases chosen : listed v with
      | true => rw [List.filter_cons_of_pos chosen, compareOn, compareOn, behind]
      | false =>
          have tie := Nat.compare_eq_eq.mpr (same v List.mem_cons_self chosen)
          rw [List.filter_cons_of_neg (Bool.eq_false_iff.mp chosen), behind, compareOn, tie]
          rfl

theorem rank_of_not_contains_vars {v : Variable} (unfixed : t.vars.contains v = false) :
    t.rank v = 2 := by
  rw [vars, VarSet.contains_union, Bool.or_eq_false_iff] at unfixed
  simp [rank, unfixed]

theorem compareFixed_eq (s t : Term) : s.compareFixed t = s.displayOrder t := by
  rw [compareFixed, ← compareOn_eq_compare, VarSet.toList, displayOrder]
  refine compareOn_filter _ fun v _ unfixed => ?_
  rw [VarSet.contains_union, Bool.or_eq_false_iff] at unfixed
  rw [rank_of_not_contains_vars unfixed.1, rank_of_not_contains_vars unfixed.2]

instance : Std.TransCmp compareFixed := by
  have same : compareFixed = displayOrder := funext fun s => funext (compareFixed_eq s)
  rw [same]
  infer_instance

/-- Terms without conflict are on a par only with themselves. -/
theorem compareFixed_eq_eq_iff (consistent : s.hasConflict = false)
    (consistent' : t.hasConflict = false) : s.compareFixed t = .eq ↔ s = t := by
  constructor
  · intro tie
    exact eq_of_displayOrder consistent consistent' ((compareFixed_eq s t).symm.trans tie)
  · rintro rfl
    exact Std.ReflCmp.compare_self

end Term

namespace Implicant

/-- The order of cubes over a list of variables: larger ones first, then by their terms. -/
def displayOrder (vs : List Variable) (a b : Implicant) : Ordering :=
  (compare a.literalCount b.literalCount).then (Term.displayOrder (a.toTerm vs) (b.toTerm vs))

instance (vs : List Variable) : Std.TransCmp (displayOrder vs) :=
  inferInstanceAs (Std.TransCmp (compareLex (compareOn literalCount)
    fun a b => Term.displayOrder (a.toTerm vs) (b.toTerm vs)))

theorem sortForDisplay_eq (as : List Implicant) (vs : List Variable) :
    sortForDisplay as vs = as.mergeSort fun a b => (displayOrder vs a b).isLE := by
  rw [sortForDisplay]
  dsimp only
  rw [← List.map_mergeSort (r := fun a b => (displayOrder vs a b).isLE), List.map_map]
  · exact List.map_id _
  · exact fun a _ b _ => rfl

/-- Cubes that are known by their terms are displayed in one way only. -/
theorem sortForDisplay_eq_of_terms {as bs : List Implicant} {vs : List Variable}
    (known : ∀ a ∈ as, ∀ b ∈ as, a.toTerm vs = b.toTerm vs → a = b) (same : bs.Perm as) :
    sortForDisplay bs vs = sortForDisplay as vs := by
  have decides (a b : Implicant) (tie : displayOrder vs a b = .eq) :
      Term.displayOrder (a.toTerm vs) (b.toTerm vs) = .eq := by
    rw [displayOrder, Ordering.then_eq_eq] at tie
    exact tie.2
  rw [sortForDisplay_eq, sortForDisplay_eq]
  exact Term.mergeSort_eq_of_terms (displayOrder vs) (·.toTerm vs) decides known
    (fun a _ => a.hasConflict_toTerm vs) same

end Implicant

namespace Karnaugh.Group

instance : Std.TransCmp order :=
  inferInstanceAs (Std.TransCmp (compareLex (fun a b => compareOn size b a)
    fun a b => Term.displayOrder a.term b.term))

/-- Groups that are known by their terms are displayed in one way only. -/
theorem mergeSort_order_eq_of_terms {groups others : List Group}
    (known : ∀ g ∈ groups, ∀ h ∈ groups, g.term = h.term → g = h)
    (consistent : ∀ group ∈ groups, group.term.hasConflict = false)
    (same : others.Perm groups) :
    (others.mergeSort fun a b => (order a b).isLE) =
      groups.mergeSort fun a b => (order a b).isLE :=
  Term.mergeSort_eq_of_terms order Group.term (fun _ _ tie => (Ordering.then_eq_eq.mp tie).2)
    known consistent same

end Karnaugh.Group

namespace Term

/-- Comparing the variables that either of two terms fixes is one order of all terms, in which terms
without conflict are on a par only with themselves.  Terms without conflict, and cubes and groups of
cells that have different ones, are therefore displayed in an order that does not depend on the one
in which they are given. -/
theorem compareFixed_consistent :
    (∀ s t : Term, compareFixed s t = displayOrder s t) ∧
      (∀ s t : Term, compareFixed t s = (compareFixed s t).swap) ∧
      (∀ s t u : Term, (compareFixed s t).isLE = true → (compareFixed t u).isLE = true →
        (compareFixed s u).isLE = true) ∧
      (∀ s t : Term, s.hasConflict = false → t.hasConflict = false →
        (compareFixed s t = .eq ↔ s = t)) ∧
      (∀ ts us : List Term, (∀ t ∈ ts, t.hasConflict = false) → us.Perm ts → sort us = sort ts) ∧
      (∀ (vs : List Variable) (as bs : List Implicant), (as.map (·.toTerm vs)).Nodup →
        bs.Perm as → Implicant.sortForDisplay bs vs = Implicant.sortForDisplay as vs) ∧
      ∀ groups others : List Karnaugh.Group, (groups.map Karnaugh.Group.term).Nodup →
        (∀ group ∈ groups, group.term.hasConflict = false) → others.Perm groups →
        (others.mergeSort fun a b => (Karnaugh.Group.order a b).isLE) =
          groups.mergeSort fun a b => (Karnaugh.Group.order a b).isLE := by
  refine ⟨compareFixed_eq, fun s t => Std.OrientedCmp.eq_swap,
    fun s t u => Std.TransCmp.isLE_trans, fun s t => compareFixed_eq_eq_iff,
    fun ts us => sort_eq_of_perm, fun vs as bs distinct => ?_, fun groups others distinct => ?_⟩
  · exact Implicant.sortForDisplay_eq_of_terms fun a first b second =>
      List.inj_on_of_nodup_map distinct first second
  · exact Karnaugh.Group.mergeSort_order_eq_of_terms fun g first h second =>
      List.inj_on_of_nodup_map distinct first second

/-- The terms `A`, `B'` and `C`, of which any two fix other variables, as terms, as cubes over
`ABC` and as groups of cells. -/
theorem compareFixed_consistent_apart :
    let a : Term := ⟨.singleton ⟨0⟩, .empty⟩
    let b : Term := ⟨.empty, .singleton ⟨1⟩⟩
    let c : Term := ⟨.singleton ⟨2⟩, .empty⟩
    let cubes : List Implicant := [⟨4, 4, 3⟩, ⟨0, 2, 3⟩, ⟨1, 1, 3⟩]
    (compareFixed a b).isLE = true ∧ (compareFixed b c).isLE = true ∧
      (compareFixed a c).isLE = true ∧ sort [c, a, b] = sort [a, b, c] ∧
      Implicant.sortForDisplay cubes.reverse [⟨0⟩, ⟨1⟩, ⟨2⟩] =
        Implicant.sortForDisplay cubes [⟨0⟩, ⟨1⟩, ⟨2⟩] ∧
      ([⟨[(0, 0)], c⟩, ⟨[(1, 0)], a⟩].mergeSort fun g h => (Karnaugh.Group.order g h).isLE) =
        [⟨[(1, 0)], a⟩, ⟨[(0, 0)], c⟩].mergeSort fun g h => (Karnaugh.Group.order g h).isLE := by
  intro a b c cubes
  obtain ⟨_, _, trans, _, terms, ofCubes, ofGroups⟩ := compareFixed_consistent
  have first : (compareFixed a b).isLE = true := by decide +kernel
  have second : (compareFixed b c).isLE = true := by decide +kernel
  refine ⟨first, second, trans a b c first second, terms _ _ ?_ ?_, ofCubes _ _ _ ?_ ?_,
    ofGroups _ _ ?_ ?_ ?_⟩
  · decide +kernel
  · decide +kernel
  · decide +kernel
  · exact List.reverse_perm cubes
  · decide +kernel
  · decide +kernel
  · exact List.Perm.swap _ _ _

end Term

end SwitchingLogic
