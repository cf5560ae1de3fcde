import Mathlib.Data.List.Induction
import SwitchingLogic.Proofs.Expr.Values
import SwitchingLogic.Term

/-!
# Values of terms

A term is known by what it fixes.  It holds in the states that agree with it; its product has the
same value, and the sum of its literals has the value of the opposite term, negated.
-/

namespace SwitchingLogic.Term

theorem fixes_free (v : Variable) (value : Bool) : free.fixes v value = false := by
  cases value <;> exact VarSet.contains_empty v

theorem fixes_set (t : Term) (v w : Variable) (value other : Bool) :
    (t.set v value).fixes w other = if v = w then value == other else t.fixes w other := by
  by_cases same : v = w
  · cases value <;> cases other <;> simp [fixes, set, same]
  · cases value <;> cases other <;> simp [fixes, set, same]

theorem fixes_restrict (t : Term) (v w : Variable) (value other : Bool) :
    (t.restrict v value).fixes w other =
      (t.fixes w other || (decide (v = w) && value == other)) := by
  cases value <;> cases other <;> simp [fixes, restrict]

theorem fixes_negateAll (t : Term) (v : Variable) (value : Bool) :
    t.negateAll.fixes v value = t.fixes v !value := by
  cases value <;> rfl

@[simp]
theorem negateAll_negateAll (t : Term) : t.negateAll.negateAll = t := rfl

theorem contains_vars_iff (t : Term) (v : Variable) :
    t.vars.contains v = true ↔ ∃ value, t.fixes v value = true := by
  rw [vars, VarSet.contains_union, Bool.or_eq_true, Bool.exists_bool]
  exact or_comm

theorem vars_restrict (t : Term) (v : Variable) (value : Bool) :
    (t.restrict v value).vars = t.vars.insert v := by
  refine VarSet.ext_contains fun w => ?_
  cases value <;> simp [restrict, vars, Bool.or_assoc, Bool.or_comm, Bool.or_left_comm]

/-- A term holds in a state that has all the values that it fixes. -/
theorem containsState_iff (t : Term) (s : State) :
    t.containsState s = true ↔
      ∀ v value, t.fixes v value = true → s.isActive v = value := by
  rw [containsState, Bool.and_eq_true, VarSet.containsAll_iff, VarSet.isDisjoint_iff]
  constructor
  · rintro ⟨positive, negative⟩ v value fixed
    cases value with
    | true => exact positive v fixed
    | false =>
        by_contra active
        have absent := negative v (Bool.not_eq_false _ ▸ active)
        exact Bool.noConfusion (absent.symm.trans fixed)
  · intro agree
    constructor
    · intro v fixed
      exact agree v true fixed
    · intro v active
      by_contra fixed
      have inactive := agree v false (Bool.not_eq_false _ ▸ fixed)
      exact Bool.noConfusion (inactive.symm.trans active)

/-- Whether a term holds depends on its variables only. -/
theorem containsState_congr (term : Term) {s t : State}
    (same : ∀ v, term.vars.contains v = true → s.isActive v = t.isActive v) :
    term.containsState s = term.containsState t := by
  rw [Bool.eq_iff_iff, containsState_iff, containsState_iff]
  refine forall_congr' fun v => forall_congr' fun value => forall_congr' fun fixed => ?_
  rw [same v ((term.contains_vars_iff v).mpr ⟨value, fixed⟩)]

theorem containsState_free (s : State) : free.containsState s = true := by
  rw [containsState_iff]
  intro v value fixed
  rw [fixes_free] at fixed
  cases fixed

/-- Restricting a term adds one condition. -/
theorem containsState_restrict (t : Term) (v : Variable) (value : Bool) (s : State) :
    (t.restrict v value).containsState s = (t.containsState s && s.isActive v == value) := by
  rw [Bool.eq_iff_iff, Bool.and_eq_true, beq_iff_eq, containsState_iff, containsState_iff]
  simp only [fixes_restrict, Bool.or_eq_true, Bool.and_eq_true, decide_eq_true_eq, beq_iff_eq]
  constructor
  · intro agree
    exact ⟨fun w other fixed => agree w other (Or.inl fixed), agree v value (Or.inr ⟨rfl, rfl⟩)⟩
  · rintro ⟨agree, active⟩ w other (fixed | ⟨rfl, rfl⟩)
    · exact agree w other fixed
    · exact active

theorem mem_literals {t : Term} {v : Variable} {value : Bool} :
    (v, value) ∈ t.literals ↔ t.fixes v value = true := by
  simp only [literals, List.mem_flatMap, VarSet.mem_toList, List.mem_append,
    List.mem_ite_nil_right, List.mem_singleton, Prod.mk.injEq]
  constructor
  · rintro ⟨w, _, ⟨fixed, rfl, rfl⟩ | ⟨fixed, rfl, rfl⟩⟩
    · exact fixed
    · exact fixed
  · intro fixed
    refine ⟨v, (contains_vars_iff t v).mpr ⟨value, fixed⟩, ?_⟩
    cases value with
    | true => exact Or.inl ⟨fixed, rfl, rfl⟩
    | false => exact Or.inr ⟨fixed, rfl, rfl⟩

theorem eval_toProduct (t : Term) (s : State) : t.toProduct.eval s = t.containsState s := by
  rw [toProduct, joined, Expr.eval_conj, List.all_map, Bool.eq_iff_iff, List.all_eq_true,
    containsState_iff, Prod.forall]
  refine forall_congr' fun v => forall_congr' fun value => ?_
  rw [mem_literals, Function.comp_apply, Expr.eval_literal, beq_iff_eq]

theorem eval_toSum (t : Term) (s : State) : t.toSum.eval s = !t.negateAll.containsState s := by
  rw [toSum, joined, Expr.eval_disj, List.any_map, Bool.eq_iff_iff, List.any_eq_true,
    Bool.not_eq_true', ← Bool.not_eq_true, containsState_iff]
  simp only [not_forall, exists_prop, Prod.exists, mem_literals, Function.comp_apply,
    Expr.eval_literal, beq_iff_eq, fixes_negateAll]
  constructor
  · rintro ⟨v, value, fixed, active⟩
    refine ⟨v, !value, ?_, ?_⟩
    · rwa [Bool.not_not]
    · rw [active]
      exact Bool.eq_not.mp (Bool.not_not _).symm
  · rintro ⟨v, value, fixed, active⟩
    exact ⟨v, !value, fixed, Bool.eq_not.mpr active⟩

theorem contains_vars_of_toProduct {t : Term} {v : Variable}
    (member : t.toProduct.vars.contains v = true) : t.vars.contains v = true := by
  obtain ⟨e, listed, member⟩ := Expr.exists_of_contains_vars_join member
  obtain ⟨⟨w, value⟩, literal, rfl⟩ := List.mem_map.mp listed
  have same : w = v := by
    cases value <;> simpa [Expr.literal, Expr.vars] using member
  exact (contains_vars_iff t v).mpr ⟨value, same ▸ mem_literals.mp literal⟩

theorem hasConflict_iff (t : Term) :
    t.hasConflict = true ↔ ∃ v, t.fixes v true = true ∧ t.fixes v false = true := by
  rw [hasConflict, Bool.not_eq_true', ← Bool.not_eq_true, VarSet.isDisjoint_iff]
  simp only [not_forall, exists_prop, Bool.not_eq_false]
  rfl

/-- Fixing a variable in place of what it was fixed to makes no conflict. -/
theorem hasConflict_set {t : Term} (consistent : t.hasConflict = false) (v : Variable)
    (value : Bool) : (t.set v value).hasConflict = false := by
  rw [← Bool.not_eq_true, hasConflict_iff] at consistent ⊢
  rintro ⟨w, positive, negative⟩
  rw [fixes_set] at positive negative
  by_cases same : v = w
  · rw [if_pos same, beq_iff_eq] at positive negative
    exact Bool.noConfusion (positive.symm.trans negative)
  · rw [if_neg same] at positive negative
    exact consistent ⟨w, positive, negative⟩

/-- A term in conflict holds nowhere. -/
theorem containsState_of_hasConflict {t : Term} (conflict : t.hasConflict = true) (s : State) :
    t.containsState s = false := by
  obtain ⟨v, positive, negative⟩ := (hasConflict_iff t).mp conflict
  rw [← Bool.not_eq_true, containsState_iff]
  intro agree
  exact Bool.noConfusion ((agree v false negative).symm.trans (agree v true positive))

theorem contains_iff (s t : Term) :
    s.contains t = true ↔ ∀ v value, s.fixes v value = true → t.fixes v value = true := by
  rw [contains, Bool.and_eq_true, VarSet.containsAll_iff, VarSet.containsAll_iff]
  constructor
  · rintro ⟨positive, negative⟩ v value
    cases value with
    | true => exact positive v
    | false => exact negative v
  · intro inside
    exact ⟨fun v => inside v true, fun v => inside v false⟩

/-- Terms that fix the same are equal. -/
theorem ext_fixes {s t : Term} (same : ∀ v value, s.fixes v value = t.fixes v value) : s = t := by
  cases s
  cases t
  refine congr (congrArg Term.mk ?_) ?_
  · exact VarSet.ext_contains fun v => same v true
  · exact VarSet.ext_contains fun v => same v false

theorem contains_trans {s t u : Term} (first : s.contains t = true)
    (second : t.contains u = true) : s.contains u = true := by
  rw [contains_iff] at *
  exact fun v value fixed => second v value (first v value fixed)

theorem contains_antisymm {s t : Term} (first : s.contains t = true)
    (second : t.contains s = true) : s = t := by
  rw [contains_iff] at *
  exact ext_fixes fun v value => Bool.eq_iff_iff.mpr ⟨first v value, second v value⟩

/-- The wider term holds wherever the narrower one does. -/
theorem containsState_of_contains {s t : Term} (inside : s.contains t = true) {x : State}
    (holds : t.containsState x = true) : s.containsState x = true := by
  rw [containsState_iff] at *
  exact fun v value fixed => holds v value ((contains_iff s t).mp inside v value fixed)

/-- Fixing different variables one after another fixes each of them to its bit. -/
theorem fixes_foldl_set (chosen bit : Nat → Bool) {places : List (Variable × Nat)}
    (nodup : (places.map Prod.fst).Nodup) (v : Variable) (value : Bool) :
    (places.foldl (fun t p => if chosen p.2 then t.set p.1 (bit p.2) else t) free).fixes v value
        = true ↔
      ∃ place, (v, place) ∈ places ∧ chosen place = true ∧ bit place = value := by
  induction places using List.reverseRecOn with
  | nil =>
      rw [List.foldl_nil, fixes_free]
      simp
  | append_singleton front last ih =>
      obtain ⟨w, place⟩ := last
      rw [List.map_append, List.nodup_append] at nodup
      obtain ⟨nodup, _, apart⟩ := nodup
      have fresh {other : Nat} (member : (w, other) ∈ front) : False :=
        apart w (List.mem_map_of_mem member) w (List.mem_singleton.mpr rfl) rfl
      rw [List.foldl_append, List.foldl_cons, List.foldl_nil]
      simp only [List.mem_append, List.mem_singleton, or_and_right, exists_or]
      rw [← ih nodup]
      cases taken : chosen place with
      | false =>
          simp only [Bool.false_eq_true, if_false]
          rw [or_iff_left]
          rintro ⟨other, same, selected, _⟩
          cases same
          exact Bool.noConfusion (taken.symm.trans selected)
      | true =>
          rw [if_pos rfl, fixes_set]
          by_cases same : w = v
          · subst same
            rw [if_pos rfl, beq_iff_eq, ih nodup]
            constructor
            · intro fixed
              exact Or.inr ⟨place, rfl, taken, fixed⟩
            · rintro (⟨other, member, _⟩ | ⟨other, same, _, fixed⟩)
              · exact (fresh member).elim
              · cases same
                exact fixed
          · rw [if_neg same, or_iff_left]
            rintro ⟨other, pair, _⟩
            cases pair
            exact same rfl

end SwitchingLogic.Term
