import SwitchingLogic.Proofs.Conversion.Equivalence

/-!
# Absorption in any order

Absorbed terms can be taken out one at a time, and what a term absorbs is also absorbed by the term
that absorbs it.  Taking one out therefore leaves the same terms absorbed, and whatever the order,
the terms that nothing absorbs are left in the end.
-/

namespace SwitchingLogic.Conversion

variable {ts us : List Term} {t : Term}

/-- A term that another one absorbs is taken out, wherever the two stand. -/
inductive Absorption : List Term → List Term → Prop where
  | remove {front back : List Term} {t u : Term} (other : u ∈ front ++ back)
      (absorbs : Absorbs u t) : Absorption (front ++ t :: back) (front ++ back)

theorem Absorption.length_lt (step : Absorption ts us) : us.length < ts.length := by
  cases step with
  | remove _ _ => simp

theorem Absorption.exists_isAbsorbed (step : Absorption ts us) :
    ∃ t ∈ ts, isAbsorbed ts t = true := by
  cases step with
  | @remove front back t u other absorbs =>
      have listed : u ∈ front ++ t :: back :=
        List.perm_middle.mem_iff.mpr (List.mem_cons_of_mem t other)
      exact ⟨t, List.mem_append_right front List.mem_cons_self,
        isAbsorbed_iff.mpr ⟨u, listed, absorbs⟩⟩

theorem absorption_erase (listed : t ∈ ts) (absorbed : isAbsorbed ts t = true) :
    Absorption ts (ts.erase t) := by
  obtain ⟨u, other, absorbs⟩ := isAbsorbed_iff.mp absorbed
  obtain ⟨front, back, _, rfl, erased⟩ := List.exists_erase_eq listed
  rw [erased]
  refine .remove ?_ absorbs
  rcases List.mem_cons.mp (List.perm_middle.mem_iff.mp other) with same | other
  · exact (absorbs.2 same).elim
  · exact other

/-- Whatever the term absorbs, the one that absorbs the term absorbs as well. -/
theorem Absorption.isAbsorbed_eq (step : Absorption ts us) : isAbsorbed us = isAbsorbed ts := by
  cases step with
  | @remove front back t u other absorbs =>
      funext s
      rw [Bool.eq_iff_iff, isAbsorbed_iff, isAbsorbed_iff]
      constructor
      · rintro ⟨v, listed, above⟩
        exact ⟨v, List.perm_middle.mem_iff.mpr (List.mem_cons_of_mem t listed), above⟩
      · rintro ⟨v, listed, above⟩
        rcases List.mem_cons.mp (List.perm_middle.mem_iff.mp listed) with rfl | listed
        · exact ⟨u, other, trans_of Absorbs absorbs above⟩
        · exact ⟨v, listed, above⟩

theorem Absorption.withoutAbsorbed_eq (step : Absorption ts us) :
    withoutAbsorbed us = withoutAbsorbed ts := by
  have same := step.isAbsorbed_eq
  cases step with
  | @remove front back t u other absorbs =>
      have gone : isAbsorbed (front ++ back) t = true := isAbsorbed_iff.mpr ⟨u, other, absorbs⟩
      change (front ++ back).filter (fun s => !isAbsorbed (front ++ back) s) =
        (front ++ t :: back).filter fun s => !isAbsorbed (front ++ t :: back) s
      rw [← same, List.filter_append, List.filter_append, List.filter_cons_of_neg]
      simp [gone]

/-- Terms are taken out one after another until none is absorbed. -/
def AbsorbsTo (ts us : List Term) : Prop :=
  Relation.ReflTransGen Absorption ts us ∧ ∀ rest, ¬ Absorption us rest

/-- Take out the first term that is absorbed, and search from the start again. -/
def absorb (ts : List Term) : List Term :=
  match found : ts.find? (isAbsorbed ts) with
  | none => ts
  | some t =>
      have := (absorption_erase (List.mem_of_find?_eq_some found)
        (List.find?_some found)).length_lt
      absorb (ts.erase t)
termination_by ts.length

theorem absorbsTo_absorb (ts : List Term) : AbsorbsTo ts (absorb ts) := by
  fun_induction absorb ts with
  | case1 ts found =>
      refine ⟨Relation.ReflTransGen.refl, fun rest step => ?_⟩
      obtain ⟨t, listed, absorbed⟩ := step.exists_isAbsorbed
      exact List.find?_eq_none.mp found t listed absorbed
  | case2 ts t found _ ih =>
      have step := absorption_erase (List.mem_of_find?_eq_some found) (List.find?_some found)
      exact ⟨Relation.ReflTransGen.head step ih.1, ih.2⟩

/-- Every run ends with the terms that nothing absorbs. -/
theorem AbsorbsTo.eq (run : AbsorbsTo ts us) : us = withoutAbsorbed ts := by
  obtain ⟨steps, stuck⟩ := run
  have kept : withoutAbsorbed us = withoutAbsorbed ts := by
    clear stuck
    induction steps with
    | refl => rfl
    | tail _ step ih => exact step.withoutAbsorbed_eq.trans ih
  rw [← kept]
  refine (List.filter_eq_self.mpr fun t listed => ?_).symm
  rw [Bool.not_eq_true', ← Bool.not_eq_true]
  exact fun absorbed => stuck _ (absorption_erase listed absorbed)

theorem absorb_eq (ts : List Term) : absorb ts = withoutAbsorbed ts :=
  (absorbsTo_absorb ts).eq

end SwitchingLogic.Conversion
