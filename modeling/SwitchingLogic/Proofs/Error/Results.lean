import Mathlib.Logic.Basic
import SwitchingLogic.Error

/-!
# Results of operations that can fail

A sequence of operations has a result when each of them has one, and a bound on a size is met when
the size does not exceed it.
-/

namespace SwitchingLogic

theorem Error.bind_eq_ok_iff {α β : Type} {first : Except Error α} {next : α → Except Error β}
    {b : β} : first >>= next = .ok b ↔ ∃ a, first = .ok a ∧ next a = .ok b := by
  constructor
  · intro run
    cases first with
    | error e => cases run
    | ok a => exact ⟨a, rfl, run⟩
  · rintro ⟨a, rfl, run⟩
    exact run

theorem Error.bind_eq_error_iff {α β : Type} {first : Except Error α}
    {next : α → Except Error β} {e : Error} :
    first >>= next = .error e ↔ first = .error e ∨ ∃ a, first = .ok a ∧ next a = .error e := by
  constructor
  · intro run
    cases first with
    | error e' => exact Or.inl (congrArg Except.error (Except.error.inj run))
    | ok a => exact Or.inr ⟨a, rfl, run⟩
  · rintro (rfl | ⟨a, rfl, run⟩)
    · rfl
    · exact run

theorem Error.pure_eq_ok_iff {α : Type} {a b : α} :
    (pure a : Except Error α) = .ok b ↔ a = b :=
  ⟨Except.ok.inj, congrArg Except.ok⟩

theorem Error.not_exists_eq_error {α : Type} {run : Except Error α} (done : ∃ r, run = .ok r) :
    (∃ e, run = .error e) ↔ False := by
  obtain ⟨r, rfl⟩ := done
  exact iff_of_false nofun id

theorem checkCapacity_eq_ok_iff (procedure : Enumeration) (count limit : Nat) (done : Unit) :
    checkCapacity procedure count limit = .ok done ↔ count ≤ limit := by
  rw [checkCapacity]
  split
  · rename_i above
    exact iff_of_false (fun run => nomatch run) (Nat.not_le.mpr above)
  · rename_i within
    exact iff_of_true rfl (Nat.le_of_not_gt within)

theorem checkCapacity_eq_error_iff (procedure : Enumeration) (count limit : Nat) (e : Error) :
    checkCapacity procedure count limit = .error e ↔
      limit < count ∧ .capacity procedure count limit = e := by
  rw [checkCapacity]
  split
  · rename_i above
    exact ⟨fun failed => ⟨above, Except.error.inj failed⟩, fun both => congrArg _ both.2⟩
  · rename_i within
    exact iff_of_false (fun run => nomatch run) fun both => within both.1

end SwitchingLogic
