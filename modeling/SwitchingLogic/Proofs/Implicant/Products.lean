import SwitchingLogic.Proofs.Implicant.Espresso
import SwitchingLogic.Proofs.TruthTable.Canonical

/-!
# Products of cubes

Over a list of different variables, one for each position, the product of a cube is true in the
states of the rows that the cube covers.  The sum of the products of a cover of the minterms
therefore has the value of the function, in whatever order the cubes are displayed.
-/

namespace SwitchingLogic.Implicant

variable {a : Implicant} {vs : List Variable}

theorem fixes_toTerm (nodup : vs.Nodup) (same : vs.length = a.width) (v : Variable)
    (value : Bool) :
    (a.toTerm vs).fixes v value = true ↔
      ∃ place, vs[place]? = some v ∧ a.isFixed place = true ∧ a.bit place = value := by
  have whole : vs.zipIdx.take a.width = vs.zipIdx :=
    List.take_of_length_le (by rw [List.length_zipIdx, same])
  have places : (vs.zipIdx.map Prod.fst).Nodup := by rwa [List.zipIdx_map_fst]
  have built := Term.fixes_foldl_set a.isFixed a.bit places v value
  simp only [List.mk_mem_zipIdx_iff_getElem?] at built
  rw [toTerm, whole]
  exact built

theorem hasConflict_toTerm (a : Implicant) (vs : List Variable) :
    (a.toTerm vs).hasConflict = false := by
  rw [toTerm]
  refine List.foldlRecOn _ _ (motive := fun t : Term => t.hasConflict = false) (by decide) ?_
  rintro t consistent ⟨v, position⟩ _
  dsimp only
  split
  · exact Term.hasConflict_set consistent v _
  · exact consistent

theorem eval_toProduct (wf : a.WellFormed) (nodup : vs.Nodup) (same : vs.length = a.width)
    (s : State) : (a.toProduct vs).eval s = a.covers (s.toIndex vs) := by
  have short : vs.length ≤ 64 := same.le.trans (wf.width_le.trans (by decide))
  rw [toProduct, Term.eval_toProduct, Bool.eq_iff_iff, Term.containsState_iff, covers_iff wf]
  constructor
  · intro agree i cared
    have low := wf.lt_width i cared
    have inside : a.width - 1 - i < vs.length := by omega
    have mirrored : a.width - 1 - (a.width - 1 - i) = i := by omega
    have fixed : a.isFixed (a.width - 1 - i) = true := by rwa [isFixed, mirrored]
    have active := agree vs[a.width - 1 - i] _
      ((fixes_toTerm nodup same _ _).mpr ⟨_, List.getElem?_eq_getElem inside, fixed, rfl⟩)
    have read := State.testBit_toIndex s short inside
    rw [same, mirrored] at read
    rw [read, active, bit, mirrored]
  · intro agree v value fixed
    obtain ⟨place, found, cared, rfl⟩ := (fixes_toTerm nodup same v value).mp fixed
    obtain ⟨inside, rfl⟩ := List.getElem?_eq_some_iff.mp found
    rw [← State.testBit_toIndex s short inside, same]
    exact agree _ cared

theorem sortForDisplay_perm (cubes : List Implicant) (vs : List Variable) :
    (sortForDisplay cubes vs).Perm cubes := by
  rw [sortForDisplay]
  refine ((List.mergeSort_perm _ _).map _).trans ?_
  rw [List.map_map]
  exact (List.map_id cubes).symm ▸ List.Perm.refl _

theorem IsCover.perm {rows : List Nat} {width : Nat} {cubes others : List Implicant}
    (cover : IsCover rows width cubes) (same : others.Perm cubes) :
    IsCover rows width others where
  implicants a member := cover.implicants a (same.mem_iff.mp member)
  covering row member := by
    obtain ⟨a, listed, covered⟩ := cover.covering row member
    exact ⟨a, same.mem_iff.mpr listed, covered⟩

/-- The sum of the products of a cover of the minterms has the value of the function. -/
theorem eval_sumOfProducts {α : Type} [LogicFunction α] {f : α}
    (depends : LogicFunction.DependsOn f vs) (nodup : vs.Nodup) (fits : vs.length ≤ maxWidth)
    {cubes : List Implicant}
    (cover : IsCover (TruthTable.tabulate f vs).minterms vs.length cubes) (s : State) :
    (sumOfProducts cubes vs).eval s = LogicFunction.eval f s := by
  have short : vs.length ≤ 64 := fits.trans (by decide)
  have product (a : Implicant) (member : a ∈ cubes) :
      (a.toProduct vs).eval s = a.covers (s.toIndex vs) :=
    eval_toProduct (cover.implicants a member).wellFormed nodup
      (cover.implicants a member).width_eq.symm s
  rw [sumOfProducts, Expr.eval_disj, List.any_map, Bool.eq_iff_iff, List.any_eq_true,
    ← TruthTable.toIndex_mem_rowsWith depends nodup short s true]
  constructor
  · rintro ⟨a, member, holds⟩
    rw [Function.comp_apply, product a member] at holds
    exact (cover.implicants a member).covered _ (s.toIndex_lt short) holds
  · intro minterm
    obtain ⟨a, member, covered⟩ := cover.covering _ minterm
    exact ⟨a, member, (product a member).trans covered⟩

end SwitchingLogic.Implicant
