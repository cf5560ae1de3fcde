import SwitchingLogic.Proofs.State.Counting
import SwitchingLogic.Proofs.Term.Values

/-!
# Prime terms

A prime term implies the function and needs each of its literals.  It says nothing of variables on
which the function does not depend.  Freeing the variables of a term one after the other, as long
as the function is implied, gives a prime term; the variables that do not matter make no difference
to the others.
-/

namespace SwitchingLogic.Term

variable {f : State → Bool} {t u : Term} {v : Variable} {vs : List Variable}

/-- What the term says of the listed variables. -/
def among (t : Term) (vs : List Variable) : Term :=
  ⟨t.positive.inter (VarSet.ofList vs), t.negative.inter (VarSet.ofList vs)⟩

theorem fixes_among (t : Term) (vs : List Variable) (v : Variable) (value : Bool) :
    (t.among vs).fixes v value = (t.fixes v value && decide (v ∈ vs)) := by
  cases value <;> simp [fixes, among]

theorem contains_among (t : Term) (vs : List Variable) : (t.among vs).contains t = true := by
  rw [contains_iff]
  intro v value fixed
  rw [fixes_among, Bool.and_eq_true] at fixed
  exact fixed.1

/-- A term without conflict fixes a variable to one value. -/
theorem eq_of_fixes {value other : Bool} (consistent : t.hasConflict = false)
    (fixed : t.fixes v value = true) (fixed' : t.fixes v other = true) : value = other := by
  have apart := (hasConflict_iff t).not.mp (Bool.not_eq_true _ ▸ consistent)
  cases value <;> cases other
  · rfl
  · exact (apart ⟨v, fixed', fixed⟩).elim
  · exact (apart ⟨v, fixed, fixed'⟩).elim
  · rfl

/-- A term without conflict holds in the state in which only its positive literals are true. -/
theorem containsState_positive (consistent : t.hasConflict = false) :
    t.containsState ⟨t.positive⟩ = true := by
  refine (containsState_iff _ _).mpr fun v value fixed => ?_
  cases value with
  | true => exact fixed
  | false =>
      refine Bool.eq_false_iff.mpr fun active => ?_
      have positive : t.fixes v true = true := active
      exact Bool.noConfusion (eq_of_fixes consistent fixed positive)

def drop (t : Term) (v : Variable) : Term := ⟨t.positive.erase v, t.negative.erase v⟩

theorem fixes_drop (t : Term) (v w : Variable) (value : Bool) :
    (t.drop v).fixes w value = (t.fixes w value && !decide (v = w)) := by
  cases value <;> simp [fixes, drop]

theorem contains_drop (t : Term) (v : Variable) : (t.drop v).contains t = true := by
  rw [contains_iff]
  intro w value fixed
  rw [fixes_drop, Bool.and_eq_true] at fixed
  exact fixed.1

/-- The function is true wherever the term holds. -/
def Implies (f : State → Bool) (t : Term) : Prop := ∀ s, t.containsState s = true → f s = true

/-- A term that implies the function, while no term with fewer literals does. -/
structure IsPrime (f : State → Bool) (t : Term) : Prop where
  consistent : t.hasConflict = false
  implies : t.Implies f
  maximal : ∀ u : Term, u.contains t = true → u.Implies f → u = t

theorem Implies.of_contains (implies : t.Implies f) (wider : t.contains u = true) :
    u.Implies f :=
  fun s holds => implies s (containsState_of_contains wider holds)

/-- What a term says of variables on which the function does not depend is not needed. -/
theorem implies_among_iff (depends : State.DependsOnly f vs) (consistent : t.hasConflict = false) :
    (t.among vs).Implies f ↔ t.Implies f := by
  refine ⟨fun implies => implies.of_contains (t.contains_among vs), fun implies s holds => ?_⟩
  have active := State.isActive_mix vs s ⟨t.positive⟩
  rw [depends s (State.mix vs s ⟨t.positive⟩) fun v listed => by rw [active, if_pos listed]]
  refine implies _ ((containsState_iff _ _).mpr fun v value fixed => ?_)
  rw [active]
  split
  · rename_i listed
    refine (containsState_iff _ _).mp holds v value ?_
    rw [fixes_among, fixed, decide_eq_true listed]
    rfl
  · exact (containsState_iff _ _).mp (containsState_positive consistent) v value fixed

/-- A prime term needs each of its literals. -/
theorem isPrime_iff :
    t.IsPrime f ↔ t.hasConflict = false ∧ t.Implies f ∧
      ∀ v value, t.fixes v value = true → ¬ (t.drop v).Implies f := by
  constructor
  · intro prime
    refine ⟨prime.consistent, prime.implies, fun v value fixed implies => ?_⟩
    rw [← prime.maximal _ (t.contains_drop v) implies, fixes_drop, decide_eq_true rfl,
      Bool.not_true, Bool.and_false] at fixed
    cases fixed
  · rintro ⟨consistent, implies, needed⟩
    refine ⟨consistent, implies, fun u wider holds => ?_⟩
    rw [contains_iff] at wider
    by_contra other
    have dropped : ∃ v value, t.fixes v value = true ∧ u.fixes v value = false := by
      by_contra none
      simp only [not_exists, not_and, Bool.not_eq_false] at none
      exact other (contains_antisymm ((contains_iff _ _).mpr wider)
        ((contains_iff _ _).mpr none))
    obtain ⟨v, value, fixed, absent⟩ := dropped
    refine needed v value fixed (holds.of_contains ((contains_iff _ _).mpr fun w value' kept => ?_))
    rw [fixes_drop, wider w value' kept, Bool.true_and, Bool.not_eq_true', decide_eq_false_iff_not]
    rintro rfl
    rw [eq_of_fixes consistent (wider v value' kept) fixed, absent] at kept
    cases kept

theorem IsPrime.among_eq (prime : t.IsPrime f) (depends : State.DependsOnly f vs) :
    t.among vs = t :=
  prime.maximal _ (t.contains_among vs)
    ((implies_among_iff depends prime.consistent).mpr prime.implies)

/-! ## Widening -/

open Classical in
/-- Free a variable if the function is still implied. -/
noncomputable def widen (f : State → Bool) (t : Term) (v : Variable) : Term :=
  if (t.drop v).Implies f then t.drop v else t

/-- Free the listed variables, one after the other, as far as possible. -/
noncomputable def widenAll (f : State → Bool) (t : Term) (vs : List Variable) : Term :=
  vs.foldl (widen f) t

theorem contains_drop_drop (wider : t.contains u = true) (v : Variable) :
    (t.drop v).contains (u.drop v) = true := by
  rw [contains_iff] at *
  intro w value fixed
  rw [fixes_drop, Bool.and_eq_true] at *
  exact ⟨wider w value fixed.1, fixed.2⟩

theorem drop_eq_self (free' : ∀ value, t.fixes v value = false) : t.drop v = t := by
  refine ext_fixes fun w value => ?_
  rw [fixes_drop]
  by_cases same : v = w
  · rw [← same, free' value, Bool.false_and]
  · rw [decide_eq_false same, Bool.not_false, Bool.and_true]

theorem hasConflict_of_contains (wider : t.contains u = true) (consistent : u.hasConflict = false) :
    t.hasConflict = false := by
  rw [contains_iff] at wider
  rw [← Bool.not_eq_true, hasConflict_iff] at *
  rintro ⟨w, positive, negative⟩
  exact consistent ⟨w, wider w true positive, wider w false negative⟩

theorem contains_refl (t : Term) : t.contains t = true :=
  (contains_iff t t).mpr fun _ _ fixed => fixed

theorem contains_widen (f : State → Bool) (t : Term) (v : Variable) :
    (t.widen f v).contains t = true := by
  rw [widen]
  split
  · exact t.contains_drop v
  · exact t.contains_refl

theorem Implies.widen (implies : t.Implies f) (v : Variable) : (t.widen f v).Implies f := by
  rw [Term.widen]
  split
  · assumption
  · exact implies

theorem contains_widenAll (f : State → Bool) (t : Term) (vs : List Variable) :
    (t.widenAll f vs).contains t = true := by
  induction vs generalizing t with
  | nil => exact t.contains_refl
  | cons v rest ih => exact contains_trans (ih (t.widen f v)) (t.contains_widen f v)

theorem Implies.widenAll (implies : t.Implies f) (vs : List Variable) :
    (t.widenAll f vs).Implies f := by
  induction vs generalizing t with
  | nil => exact implies
  | cons v rest ih => exact ih (implies.widen v)

/-- A variable that could have been freed in the end could have been freed in its turn. -/
theorem not_implies_drop_widenAll {value : Bool} (listed : v ∈ vs)
    (fixed : (t.widenAll f vs).fixes v value = true) :
    ¬ ((t.widenAll f vs).drop v).Implies f := by
  induction vs generalizing t with
  | nil => cases listed
  | cons w rest ih =>
      rcases List.mem_cons.mp listed with rfl | later
      · have wider := contains_widenAll f (t.widen f v) rest
        have kept := (contains_iff _ _).mp wider v value fixed
        intro implies
        by_cases possible : (t.drop v).Implies f
        · rw [widen, if_pos possible, fixes_drop, decide_eq_true rfl, Bool.not_true,
            Bool.and_false] at kept
          cases kept
        · have same : t.widen f v = t := if_neg possible
          have whole : t.widenAll f (v :: rest) = t.widenAll f rest :=
            congrArg (widenAll f · rest) same
          rw [whole] at implies
          rw [same] at wider
          exact possible (implies.of_contains (contains_drop_drop wider v))
      · exact ih later fixed

theorem isPrime_widenAll (consistent : t.hasConflict = false) (implies : t.Implies f)
    (listed : ∀ v value, t.fixes v value = true → v ∈ vs) : (t.widenAll f vs).IsPrime f := by
  have wider := contains_widenAll f t vs
  refine isPrime_iff.mpr ⟨hasConflict_of_contains wider consistent, implies.widenAll vs,
    fun v value fixed => not_implies_drop_widenAll ?_ fixed⟩
  exact listed v value ((contains_iff _ _).mp wider v value fixed)

theorem among_drop (t : Term) (v : Variable) (vs : List Variable) :
    (t.drop v).among vs = (t.among vs).drop v :=
  ext_fixes fun w value => by
    rw [fixes_among, fixes_drop, fixes_drop, fixes_among, Bool.and_right_comm]

theorem among_drop_of_not_mem (unlisted : v ∉ vs) : (t.drop v).among vs = t.among vs := by
  refine ext_fixes fun w value => ?_
  rw [fixes_among, fixes_among, fixes_drop]
  by_cases same : v = w
  · rw [← same, decide_eq_false unlisted, Bool.and_false, Bool.and_false]
  · rw [decide_eq_false same, Bool.not_false, Bool.and_true]

/-- A function that depends on listed variables only is blind to what a term says of others. -/
theorem among_widenAll (depends : State.DependsOnly f vs) (consistent : t.hasConflict = false)
    (order : List Variable) :
    (t.widenAll f order).among vs =
      (t.among vs).widenAll f (order.filter fun v => decide (v ∈ vs)) := by
  induction order generalizing t with
  | nil => rfl
  | cons v rest ih =>
      have next := ih (hasConflict_of_contains (t.contains_widen f v) consistent)
      by_cases listed : v ∈ vs
      · have same : (t.widen f v).among vs = (t.among vs).widen f v := by
          have dropped := implies_among_iff depends
            (hasConflict_of_contains (t.contains_drop v) consistent)
          rw [among_drop] at dropped
          rw [widen, widen, dropped]
          split
          · rw [among_drop]
          · rfl
        rw [List.filter_cons_of_pos (by simp [listed])]
        exact next.trans (congrArg (widenAll f · _) same)
      · have same : (t.widen f v).among vs = t.among vs := by
          rw [widen]
          split
          · exact among_drop_of_not_mem listed
          · rfl
        rw [List.filter_cons_of_neg (by simp [listed])]
        exact next.trans (congrArg (widenAll f · _) same)

/-- The term that holds in one state only. -/
def ofState (s : State) : Term := ⟨s.active, (VarSet.ofList Variable.all).diff s.active⟩

theorem fixes_ofState (s : State) (v : Variable) (value : Bool) :
    (ofState s).fixes v value = true ↔ s.isActive v = value := by
  cases value with
  | true => exact Iff.rfl
  | false => simp [fixes, ofState, Variable.mem_all, State.isActive]

theorem hasConflict_ofState (s : State) : (ofState s).hasConflict = false := by
  rw [← Bool.not_eq_true, hasConflict_iff]
  rintro ⟨v, positive, negative⟩
  rw [fixes_ofState] at positive negative
  exact Bool.noConfusion (positive.symm.trans negative)

/-- What grows from a state, variable by variable in their order. -/
noncomputable def grown (f : State → Bool) (s : State) : Term :=
  (ofState s).widenAll f Variable.all

theorem isPrime_grown {s : State} (true' : f s = true) : (grown f s).IsPrime f := by
  refine isPrime_widenAll (hasConflict_ofState s) (fun s' holds => ?_) fun v _ _ => v.mem_all
  have same : s' = s := State.ext_isActive fun v =>
    (containsState_iff _ _).mp holds v _ ((fixes_ofState s v _).mpr rfl)
  rwa [same]

/-- The same grows over the variables on which the function depends. -/
theorem grown_eq {s : State} (ordered : State.IsOrdered vs) (depends : State.DependsOnly f vs)
    (true' : f s = true) : grown f s = ((ofState s).among vs).widenAll f vs := by
  rw [← (isPrime_grown true').among_eq depends, grown,
    among_widenAll depends (hasConflict_ofState s), ordered]

end SwitchingLogic.Term
