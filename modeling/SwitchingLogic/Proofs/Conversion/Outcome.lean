import SwitchingLogic.Conversion
import SwitchingLogic.Proofs.TruthTable.Canonical

/-!
# Outcomes of conversions

A conversion needs the truth table of the formula and its distributed terms.  Once it has both it
cannot fail any more, so it fails for too many variables or for too many terms and for no other
reason.
-/

namespace SwitchingLogic.Conversion

theorem expand_eq_error {form : NormalForm} {e : Expr} {positive : Bool} {ts : List Term}
    {x : Error} (failed : expand form e positive ts = .error x) :
    x = .tooManyTerms form maxTerms := by
  induction e generalizing positive ts with
  | var v => cases failed
  | const b => cases failed
  | not e ih => exact ih failed
  | binary op l r ihl ihr =>
      rw [expand] at failed
      split at failed
      · obtain left | ⟨us, _, right⟩ := Error.bind_eq_error_iff.mp failed
        · exact ihl left
        · exact ihr right
      · obtain left | ⟨us, _, later⟩ := Error.bind_eq_error_iff.mp failed
        · exact ihl left
        · obtain right | ⟨vs, _, many⟩ := Error.bind_eq_error_iff.mp later
          · exact ihr right
          · dsimp only at many
            split at many
            · cases many
              rfl
            · cases many

/-- Distributing fails for nothing but the number of terms. -/
theorem distribute_eq_error {form : NormalForm} {e : Expr} {x : Error}
    (failed : distribute form e = .error x) : x = .tooManyTerms form maxTerms := by
  cases form with
  | sumOfProducts => exact expand_eq_error failed
  | productOfSums =>
      obtain expanded | ⟨us, _, negated⟩ := Error.bind_eq_error_iff.mp failed
      · exact expand_eq_error expanded
      · cases negated

def start (f : Formula) (form : NormalForm) (ts : List Term) : Progress :=
  let canonical := canonicalForm (TruthTable.tabulate f.expr f.vars) form
  ⟨ts, [⟨.canonical canonical.2, canonical.1⟩, ⟨.distributed ts.length, assemble form ts⟩]⟩

/-- Leave out conflicts, then repetitions, and then what is absorbed. -/
def Progress.clear (p : Progress) (form : NormalForm) : Progress :=
  ((p.remove form .removedConflicts withoutConflicts).remove form .removedRepetitions
    List.eraseDups).remove form .removedAbsorbed withoutAbsorbed

def finish (f : Formula) (form : NormalForm) (ts : List Term) : Result :=
  let canonical := canonicalForm (TruthTable.tabulate f.expr f.vars) form
  let cleared := (start f form ts).clear form
  ⟨form, f.expr, canonical.1, assemble form (Term.sort cleared.terms), cleared.steps,
    f.vars.length, canonical.2, ts.length, (Term.sort cleared.terms).length⟩

theorem convert_eq (f : Formula) (form : NormalForm) :
    convert f form = (do
      let _ ← TruthTable.build f.expr f.vars
      let ts ← distribute form f.expr
      pure (finish f form ts)) := by
  have error_bind {α β : Type} (e : Error) (next : α → Except Error β) :
      (Except.error e >>= next) = .error e := rfl
  have ok_bind {α β : Type} (a : α) (next : α → Except Error β) :
      (Except.ok a >>= next) = next a := rfl
  cases table : TruthTable.build f.expr f.vars with
  | error e => rw [convert, table, error_bind, error_bind]
  | ok t =>
      obtain ⟨_, rfl⟩ := (TruthTable.build_eq_ok_iff f.expr f.vars).mp table
      rw [convert, table, ok_bind, ok_bind]
      rfl

theorem convert_eq_ok_iff {f : Formula} {form : NormalForm} {r : Result} :
    convert f form = .ok r ↔ f.vars.length ≤ TruthTable.maxVariables ∧
      ∃ ts, distribute form f.expr = .ok ts ∧ finish f form ts = r := by
  simp only [convert_eq, Error.bind_eq_ok_iff, TruthTable.build_eq_ok_iff, Error.pure_eq_ok_iff]
  constructor
  · rintro ⟨_, ⟨small, rfl⟩, ts, distributed, made⟩
    exact ⟨small, ts, distributed, made⟩
  · rintro ⟨small, ts, distributed, made⟩
    exact ⟨_, ⟨small, rfl⟩, ts, distributed, made⟩

/-- A conversion fails if there are too many variables for a truth table, or else if distributing
makes too many terms. -/
theorem convert_eq_error_iff {f : Formula} {form : NormalForm} {x : Error} :
    convert f form = .error x ↔
      TruthTable.maxVariables < f.vars.length ∧
          x = .capacity .truthTable f.vars.length TruthTable.maxVariables ∨
        f.vars.length ≤ TruthTable.maxVariables ∧ distribute form f.expr = .error x := by
  have finished (ts : List Term) : (pure (finish f form ts) : Except Error Result) ≠ .error x :=
    nofun
  simp only [convert_eq, Error.bind_eq_error_iff, TruthTable.build_eq_error_iff,
    TruthTable.build_eq_ok_iff, finished, and_false, exists_false, or_false, eq_comm (a := x)]
  refine or_congr_right ⟨?_, ?_⟩
  · rintro ⟨_, ⟨small, rfl⟩, failed⟩
    exact ⟨small, failed⟩
  · rintro ⟨small, failed⟩
    exact ⟨_, ⟨small, rfl⟩, failed⟩

/-- A conversion fails for too many variables, or because distributing makes too many terms. -/
theorem exists_convert_eq_error_iff {f : Formula} {form : NormalForm} :
    (∃ e, convert f form = .error e) ↔ TruthTable.maxVariables < f.vars.length ∨
      distribute form f.expr = .error (.tooManyTerms form maxTerms) := by
  simp only [convert_eq_error_iff]
  constructor
  · rintro ⟨e, ⟨many, _⟩ | ⟨_, failed⟩⟩
    · exact Or.inl many
    · cases distribute_eq_error failed
      exact Or.inr failed
  · rintro (many | failed)
    · exact ⟨_, Or.inl ⟨many, rfl⟩⟩
    · by_cases few : f.vars.length ≤ TruthTable.maxVariables
      · exact ⟨_, Or.inr ⟨few, failed⟩⟩
      · exact ⟨_, Or.inl ⟨Nat.lt_of_not_le few, rfl⟩⟩

end SwitchingLogic.Conversion
