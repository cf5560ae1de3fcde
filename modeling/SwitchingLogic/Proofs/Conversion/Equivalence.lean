import Mathlib.Order.WellFoundedSet
import SwitchingLogic.Proofs.Conversion.Distribution
import SwitchingLogic.Proofs.Minimize.Equivalence
import SwitchingLogic.Proofs.Term.Order

/-!
# Equivalence of normal forms

Clearing a list of terms leaves out terms that select no state, or only states that another term
selects as well.  So the canonical form, the distributed form and all forms on the way to the
shortest one have the value of the expression.
-/

namespace SwitchingLogic.Conversion

theorem not_selects_of_hasConflict (form : NormalForm) {t : Term}
    (conflict : t.hasConflict = true) (s : State) : form.selects t s = false := by
  cases form with
  | sumOfProducts => exact Term.containsState_of_hasConflict conflict s
  | productOfSums =>
      apply Term.containsState_of_hasConflict
      rw [Term.hasConflict_iff] at *
      obtain ⟨v, positive, negative⟩ := conflict
      exact ⟨v, negative, positive⟩

theorem selects_of_contains (form : NormalForm) {t u : Term} (inside : t.contains u = true)
    {s : State} (selected : form.selects u s = true) : form.selects t s = true := by
  cases form with
  | sumOfProducts => exact Term.containsState_of_contains inside selected
  | productOfSums =>
      refine Term.containsState_of_contains ?_ selected
      rw [Term.contains_iff] at *
      intro v value fixed
      rw [Term.fixes_negateAll] at *
      exact inside v _ fixed

theorem Selected.mono {form : NormalForm} {ts us : List Term} {s : State} (inside : ts ⊆ us)
    (selected : Selected form ts s) : Selected form us s := by
  obtain ⟨t, member, selects⟩ := selected
  exact ⟨t, inside member, selects⟩

theorem mem_withoutConflicts {ts : List Term} {t : Term} :
    t ∈ withoutConflicts ts ↔ t ∈ ts ∧ t.hasConflict = false := by
  rw [withoutConflicts, List.mem_filter, Bool.not_eq_true']

theorem selected_withoutConflicts (form : NormalForm) (ts : List Term) (s : State) :
    Selected form (withoutConflicts ts) s ↔ Selected form ts s := by
  constructor
  · exact Selected.mono (List.filter_subset_self ts)
  · rintro ⟨t, member, selects⟩
    refine ⟨t, mem_withoutConflicts.mpr ⟨member, ?_⟩, selects⟩
    rw [← Bool.not_eq_true]
    intro conflict
    rw [not_selects_of_hasConflict form conflict] at selects
    cases selects

theorem selected_eraseDups (form : NormalForm) (ts : List Term) (s : State) :
    Selected form ts.eraseDups s ↔ Selected form ts s := by
  simp only [Selected, List.mem_eraseDups]

/-- One term includes all literals of another one, and more. -/
def Absorbs (t u : Term) : Prop :=
  t.contains u = true ∧ t ≠ u

instance : IsStrictOrder Term Absorbs where
  irrefl t absorbed := absorbed.2 rfl
  trans t u v := by
    rintro ⟨inner, different⟩ ⟨outer, _⟩
    refine ⟨Term.contains_trans inner outer, ?_⟩
    rintro rfl
    exact different (Term.contains_antisymm inner outer)

def isAbsorbed (ts : List Term) (t : Term) : Bool :=
  ts.any fun u => u.contains t && u != t

theorem isAbsorbed_iff {ts : List Term} {t : Term} :
    isAbsorbed ts t = true ↔ ∃ u ∈ ts, Absorbs u t := by
  simp only [isAbsorbed, List.any_eq_true, Bool.and_eq_true, bne_iff_ne]
  rfl

theorem mem_withoutAbsorbed {ts : List Term} {t : Term} :
    t ∈ withoutAbsorbed ts ↔ t ∈ ts ∧ ∀ u ∈ ts, ¬ Absorbs u t := by
  have others : (!isAbsorbed ts t) = true ↔ ∀ u ∈ ts, ¬ Absorbs u t := by
    rw [Bool.not_eq_true', ← Bool.not_eq_true, isAbsorbed_iff]
    simp only [not_exists, not_and]
  rw [← others]
  exact List.mem_filter

/-- Among the terms that select a state, one that no other term absorbs is left. -/
theorem selected_withoutAbsorbed (form : NormalForm) (ts : List Term) (s : State) :
    Selected form (withoutAbsorbed ts) s ↔ Selected form ts s := by
  constructor
  · exact Selected.mono (List.filter_subset_self ts)
  · rintro ⟨t, member, selects⟩
    -- What absorbs the term may be absorbed itself, but not without end.
    have descend := (List.finite_toSet ts).wellFoundedOn (r := Absorbs)
    refine descend.induction (P := fun t => form.selects t s = true →
      Selected form (withoutAbsorbed ts) s) member ?_ selects
    intro t listed above selects
    by_cases absorbed : ∃ u ∈ ts, Absorbs u t
    · obtain ⟨u, other, absorbs⟩ := absorbed
      exact above u other absorbs (selects_of_contains form absorbs.1 selects)
    · have nothing : ∀ u ∈ ts, ¬ Absorbs u t := fun u other absorbs => absorbed ⟨u, other, absorbs⟩
      exact ⟨t, mem_withoutAbsorbed.mpr ⟨listed, nothing⟩, selects⟩

theorem selected_sort (form : NormalForm) (ts : List Term) (s : State) :
    Selected form (Term.sort ts) s ↔ Selected form ts s := by
  simp only [Selected, (Term.sort_perm ts).mem_iff]

/-- The terms select the states of the expression, and the forms so far have its value. -/
structure Progress.Sound (form : NormalForm) (e : Expr) (p : Progress) : Prop where
  selected : ∀ s, Selected form p.terms s ↔ e.eval s = form.selected
  steps : ∀ step ∈ p.steps, ∀ s, step.expr.eval s = e.eval s

theorem Progress.Sound.remove {form : NormalForm} {e : Expr} {p : Progress}
    (sound : p.Sound form e) (action : Nat → Action) {remove : List Term → List Term}
    (keeps : ∀ ts s, Selected form (remove ts) s ↔ Selected form ts s) :
    (p.remove form action remove).Sound form e := by
  have sorted (s : State) :
      Selected form (Term.sort (remove p.terms)) s ↔ e.eval s = form.selected := by
    rw [selected_sort, keeps, sound.selected]
  unfold Progress.remove
  dsimp only
  split
  · constructor
    · exact sorted
    · intro step member s
      rcases List.mem_append.mp member with earlier | last
      · exact sound.steps step earlier s
      · cases List.mem_singleton.mp last
        exact eval_assemble_eq (sorted s)
  · exact sound

theorem eval_canonicalForm (f : Formula) (form : NormalForm) (s : State) :
    (canonicalForm (TruthTable.tabulate f.expr f.vars) form).1.eval s = f.expr.eval s := by
  cases form with
  | sumOfProducts =>
      exact TruthTable.eval_canonicalSop f.dependsOn_vars f.nodup_vars f.length_vars_le s
  | productOfSums =>
      exact TruthTable.eval_canonicalPos f.dependsOn_vars f.nodup_vars f.length_vars_le s

/-- The canonical form, the minimized form and the expression of every step have the value of the
formula in every state. -/
theorem eval_convert {f : Formula} {form : NormalForm} {r : Result}
    (done : convert f form = .ok r) (s : State) :
    r.canonical.eval s = f.expr.eval s ∧ r.minimized.eval s = f.expr.eval s ∧
      ∀ step ∈ r.steps, step.expr.eval s = f.expr.eval s := by
  obtain ⟨t, table, rest⟩ := Error.bind_eq_ok_iff.mp done
  obtain ⟨_, rfl⟩ := (TruthTable.build_eq_ok_iff f.expr f.vars).mp table
  obtain ⟨ts, distributed, finished⟩ := Error.bind_eq_ok_iff.mp rest
  have selected := selected_distribute distributed
  have start : Progress.Sound form f.expr
      ⟨ts, [⟨.canonical (canonicalForm (TruthTable.tabulate f.expr f.vars) form).2,
        (canonicalForm (TruthTable.tabulate f.expr f.vars) form).1⟩,
        ⟨.distributed ts.length, assemble form ts⟩]⟩ := by
    refine ⟨selected, ?_⟩
    simp only [List.forall_mem_cons]
    refine ⟨eval_canonicalForm f form, fun s => eval_assemble_eq (selected s), ?_⟩
    intro step none
    cases none
  have final := ((start.remove .removedConflicts (selected_withoutConflicts form)).remove
    .removedRepetitions (selected_eraseDups form)).remove
    .removedAbsorbed (selected_withoutAbsorbed form)
  have minimized := eval_assemble_eq ((selected_sort form _ s).trans (final.selected s))
  cases finished
  exact ⟨eval_canonicalForm f form s, minimized, fun step member => final.steps step member s⟩

theorem eval_convert_distributed :
    let f : Formula := ⟨"(A+B)(A+!B)", "(A+B)·(A+!B)", .binary .and
      (.binary .or (.var ⟨0⟩) (.var ⟨1⟩)) (.binary .or (.var ⟨0⟩) (.not (.var ⟨1⟩)))⟩
    ∃ r, convert f .sumOfProducts = .ok r ∧ ∀ s,
      r.canonical.eval s = s.isActive ⟨0⟩ ∧ r.minimized.eval s = s.isActive ⟨0⟩ ∧
        ∀ step ∈ r.steps, step.expr.eval s = s.isActive ⟨0⟩ := by
  intro f
  have value (s : State) : f.expr.eval s = s.isActive ⟨0⟩ :=
    (by decide : ∀ a b, ((a || b) && (a || !b)) = a) _ _
  obtain ⟨r, done⟩ : ∃ r, convert f .sumOfProducts = .ok r := by
    unfold f
    exact ⟨_, rfl⟩
  refine ⟨r, done, fun s => ?_⟩
  have values := eval_convert done s
  rw [value] at values
  exact values

end SwitchingLogic.Conversion
