import Mathlib.Data.Set.Basic
import SwitchingLogic.Proofs.Term.Prime

/-!
# States of terms

A term stands for the set of the states in which it holds; it is in conflict when there are none.
Terms are compared and conjoined literal by literal; of terms without conflict this tells which
states they share and whether those of one are all among those of the other.
-/

namespace SwitchingLogic.Term

variable {s t : Term}

/-- The states in which the term holds. -/
def states (t : Term) : Set State := {x | t.containsState x = true}

@[simp]
theorem mem_states {x : State} : x ∈ t.states ↔ t.containsState x = true := Iff.rfl

theorem nonempty_states_iff : t.states.Nonempty ↔ t.hasConflict = false := by
  constructor
  · rintro ⟨x, holds⟩
    by_contra conflict
    have nowhere := containsState_of_hasConflict (Bool.of_not_eq_false conflict) x
    exact Bool.noConfusion (nowhere.symm.trans holds)
  · intro consistent
    exact ⟨_, containsState_positive consistent⟩

/-- A literal that a term does not have is false in one of the states of the term. -/
theorem exists_state_against (consistent : t.hasConflict = false) {v : Variable} {value : Bool}
    (missing : t.fixes v value = false) : ∃ x ∈ t.states, x.isActive v = !value := by
  -- The state in which the positive literals are true, set against the literal.
  let x := State.set ⟨t.positive⟩ v (!value)
  have active : x.isActive v = !value := by simp [x, State.isActive_set]
  refine ⟨x, (containsState_iff t x).mpr fun w other fixed => ?_, active⟩
  by_cases same : v = w
  · subst same
    have different : other ≠ value := by
      rintro rfl
      exact Bool.noConfusion (missing.symm.trans fixed)
    rw [active, Bool.not_eq.mpr different.symm]
  · have elsewhere := (containsState_iff t _).mp (containsState_positive consistent) w other fixed
    simpa [x, State.isActive_set, same] using elsewhere

theorem contains_iff_states_subset (consistent : t.hasConflict = false) :
    s.contains t = true ↔ t.states ⊆ s.states := by
  constructor
  · intro inside x holds
    exact containsState_of_contains inside holds
  · intro inside
    refine (contains_iff s t).mpr fun v value fixed => ?_
    by_contra missing
    obtain ⟨x, holds, against⟩ := exists_state_against consistent (Bool.not_eq_true _ ▸ missing)
    have agrees := (containsState_iff s x).mp (inside holds) v value fixed
    exact Bool.not_ne_self value (against.symm.trans agrees)

theorem fixes_conjoin (s t : Term) (v : Variable) (value : Bool) :
    (s.conjoin t).fixes v value = (s.fixes v value || t.fixes v value) := by
  cases value <;> simp [fixes, conjoin]

theorem states_conjoin (s t : Term) : (s.conjoin t).states = s.states ∩ t.states := by
  ext x
  simp only [Set.mem_inter_iff, mem_states, containsState_iff, fixes_conjoin, Bool.or_eq_true,
    or_imp, forall_and]

/-- A conjunction is in conflict when the two terms share no state. -/
theorem hasConflict_conjoin_iff : (s.conjoin t).hasConflict = true ↔ s.states ∩ t.states = ∅ := by
  rw [← states_conjoin, ← Set.not_nonempty_iff_eq_empty, nonempty_states_iff, Bool.not_eq_false]

theorem overlaps_iff :
    s.overlaps t = true ↔ ∀ v value, s.fixes v value = true → t.fixes v (!value) = false := by
  simp only [overlaps, Bool.and_eq_true, VarSet.isDisjoint_iff, Bool.forall_bool, forall_and]
  exact and_comm

/-- Terms without conflict overlap when their conjunction is without conflict, too. -/
theorem overlaps_iff_nonempty (consistent : s.hasConflict = false)
    (consistent' : t.hasConflict = false) :
    s.overlaps t = true ↔ (s.states ∩ t.states).Nonempty := by
  rw [overlaps_iff]
  constructor
  · intro agree
    rw [← states_conjoin, nonempty_states_iff, ← Bool.not_eq_true, hasConflict_iff]
    simp only [fixes_conjoin, Bool.or_eq_true]
    rintro ⟨v, positive | positive, negative | negative⟩
    · cases eq_of_fixes consistent positive negative
    · cases (agree v true positive).symm.trans negative
    · cases (agree v false negative).symm.trans positive
    · cases eq_of_fixes consistent' positive negative
  · rintro ⟨x, left, right⟩ v value fixed
    by_contra opposite
    have here := (containsState_iff s x).mp left v value fixed
    have there := (containsState_iff t x).mp right v (!value) (Bool.of_not_eq_false opposite)
    exact Bool.not_ne_self value (there.symm.trans here)

/-- What comparing literals tells of terms without conflict is exact on states.  The product of a
term is true in its states, and the sum of its literals, each negated, in all others. -/
theorem literals_exact (s t : Term) (consistent : s.hasConflict = false)
    (consistent' : t.hasConflict = false) :
    (s.contains t = true ↔ t.states ⊆ s.states) ∧
      (s.overlaps t = true ↔ (s.states ∩ t.states).Nonempty) ∧
      (s.conjoin t).states = s.states ∩ t.states ∧
      ((s.conjoin t).hasConflict = true ↔ s.states ∩ t.states = ∅) ∧
      ∀ x : State, s.toProduct.eval x = LogicFunction.eval s x ∧
        s.negateAll.toSum.eval x = !LogicFunction.eval s x := by
  refine ⟨contains_iff_states_subset consistent', overlaps_iff_nonempty consistent consistent',
    states_conjoin s t, hasConflict_conjoin_iff, fun x => ⟨eval_toProduct s x, ?_⟩⟩
  rw [eval_toSum, negateAll_negateAll]
  rfl

/-- The terms `AB'` and `B'C` share states, but neither includes those of the other. -/
theorem literals_exact_crossing :
    let s : Term := ⟨.singleton ⟨0⟩, .singleton ⟨1⟩⟩
    let t : Term := ⟨.singleton ⟨2⟩, .singleton ⟨1⟩⟩
    s.hasConflict = false ∧ t.hasConflict = false ∧ (s.states ∩ t.states).Nonempty ∧
      ¬ t.states ⊆ s.states ∧ ¬ s.states ⊆ t.states := by
  intro s t
  have consistent : s.hasConflict = false := by decide
  have consistent' : t.hasConflict = false := by decide
  have exact' := literals_exact s t consistent consistent'
  have swapped := literals_exact t s consistent' consistent
  refine ⟨consistent, consistent', exact'.2.1.mp (by decide), ?_, ?_⟩
  · exact exact'.1.not.mp (by decide)
  · exact swapped.1.not.mp (by decide)

end SwitchingLogic.Term
