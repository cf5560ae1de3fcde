import SwitchingLogic.Proofs.Law.Pass
import SwitchingLogic.Proofs.Minimize.Equivalence
import SwitchingLogic.Simplify

/-!
# Soundness of simplification

What a method derives keeps the value of the formula in every state, and each recorded step keeps
the value of the expression that it changes.
-/

namespace SwitchingLogic.Simplify

/-- The derived expression keeps the value of the given one, and so does every step. -/
structure Derivation.Sound (e : Expr) (d : Derivation) : Prop where
  value : ∀ s, d.expr.eval s = e.eval s
  steps : ∀ step ∈ d.steps, step.Sound

def Candidate.Sound (e : Expr) (c : Candidate) : Prop :=
  ∀ d, c.outcome = .ok d → d.Sound e

theorem sound_byLaws (e : Expr) : (byLaws e).Sound e := by
  obtain ⟨value, steps⟩ := Law.sound_applyUpTo Law.maxPasses e
  exact ⟨value, steps⟩

theorem Derivation.Sound.byDeMorgan {e : Expr} {d : Derivation} (sound : d.Sound e) :
    (byDeMorgan d).Sound e := by
  have pushed := (Law.sound_push_and_pushNegated d.expr).1
  obtain ⟨value, steps⟩ :=
    Law.sound_applyUpTo Law.maxPasses (Law.pushNegations d.expr).1
  constructor
  · intro s
    exact (value s).trans ((pushed.value s).trans (sound.value s))
  · exact Law.sound_append (Law.sound_append sound.steps pushed.steps) steps

theorem eval_quineMcCluskey {f : Formula} {e : Expr} (done : quineMcCluskey f = .ok e)
    (s : State) : e.eval s = f.expr.eval s := by
  obtain ⟨t, table, rest⟩ := Error.bind_eq_ok_iff.mp done
  obtain ⟨small, rfl⟩ := (TruthTable.build_eq_ok_iff f.expr f.vars).mp table
  have fits : f.vars.length ≤ Implicant.maxWidth := small.trans (by decide)
  by_cases always : (TruthTable.tabulate f.expr f.vars).isTautology = true
  · rw [if_pos always] at rest
    cases rest
    rw [TruthTable.isTautology_iff f.dependsOn_vars f.nodup_vars f.length_vars_le] at always
    exact (always s).symm
  · rw [if_neg always] at rest
    cases rest
    have cover := Algorithm.quineMcCluskey.isCover_cover_minterms f fits
    exact Implicant.eval_sumOfProducts f.dependsOn_vars f.nodup_vars fits
      (cover.perm (Implicant.sortForDisplay_perm _ _)) s

theorem sound_twoLevelCandidate (f : Formula) : (twoLevelCandidate f).Sound f.expr := by
  intro d found
  cases done : quineMcCluskey f with
  | error e =>
      rw [twoLevelCandidate, done] at found
      cases found
  | ok e =>
      rw [twoLevelCandidate, done] at found
      cases found
      exact ⟨eval_quineMcCluskey done, fun step none => (List.not_mem_nil none).elim⟩

theorem sound_candidates {f : Formula} {method : Method} {cs : List Candidate}
    (done : candidates f method = .ok cs) : ∀ c ∈ cs, c.Sound f.expr := by
  have basic : Candidate.Sound f.expr ⟨.basic, .ok (byLaws f.expr)⟩ := by
    rintro d ⟨⟩
    exact sound_byLaws f.expr
  have deMorgan : Candidate.Sound f.expr ⟨.deMorgan, .ok (byDeMorgan (byLaws f.expr))⟩ := by
    rintro d ⟨⟩
    exact (sound_byLaws f.expr).byDeMorgan
  have twoLevel := sound_twoLevelCandidate f
  cases method with
  | auto =>
      cases done
      simp only [List.forall_mem_cons]
      exact ⟨basic, deMorgan, twoLevel, fun c none => (List.not_mem_nil none).elim⟩
  | basic =>
      cases done
      exact List.forall_mem_singleton.mpr basic
  | deMorgan =>
      cases done
      exact List.forall_mem_singleton.mpr deMorgan
  | quineMcCluskey =>
      obtain ⟨_, _, rest⟩ := Error.bind_eq_ok_iff.mp done
      cases rest
      exact List.forall_mem_singleton.mpr twoLevel

/-- What is chosen among sound candidates is sound. -/
theorem sound_foldl_better {e : Expr} {cs : List Candidate} (sound : ∀ c ∈ cs, c.Sound e)
    (best? : Option (Method × Derivation)) (start : ∀ best ∈ best?, best.2.Sound e) :
    ∀ best ∈ cs.foldl better best?, best.2.Sound e := by
  induction cs generalizing best? with
  | nil => exact start
  | cons c rest ih =>
      rw [List.foldl_cons]
      refine ih (fun c' member => sound c' (List.mem_cons_of_mem _ member)) _ ?_
      have here := sound c List.mem_cons_self
      unfold better
      split
      · exact start
      · rename_i d found
        rintro best ⟨⟩
        exact here d found
      · rename_i d best found
        split
        · rintro best ⟨⟩
          exact here d found
        · exact start

/-- Simplification keeps the value of the formula in every state, for the chosen expression and
for each candidate, and every step recorded on the way keeps the value as well. -/
theorem sound_run {f : Formula} {method : Method} {r : Result} (done : run f method = .ok r) :
    (∀ s, r.simplified.eval s = f.expr.eval s) ∧
      (∀ step ∈ r.steps, ∀ s, step.before.eval s = step.after.eval s) ∧
      ∀ c ∈ r.candidates, ∀ d, c.outcome = .ok d →
        (∀ s, d.expr.eval s = f.expr.eval s) ∧
          ∀ step ∈ d.steps, ∀ s, step.before.eval s = step.after.eval s := by
  obtain ⟨cs, found, rest⟩ := Error.bind_eq_ok_iff.mp done
  have all := sound_candidates found
  have chosen : ((cs.foldl better none).getD (method, ⟨f.expr, []⟩)).2.Sound f.expr := by
    have folded := sound_foldl_better all none fun best none => nomatch none
    cases found : cs.foldl better none with
    | none => exact ⟨fun s => rfl, fun step none => (List.not_mem_nil none).elim⟩
    | some best => exact folded best found
  cases rest
  exact ⟨chosen.value, chosen.steps,
    fun c member d ok => ⟨(all c member d ok).value, (all c member d ok).steps⟩⟩

theorem sound_run_joined :
    let f : Formula := ⟨"!(!A!B)", "!(!A·!B)",
      .not (.binary .and (.not (.var ⟨0⟩)) (.not (.var ⟨1⟩)))⟩
    ∃ r, run f .deMorgan = .ok r ∧
      (∀ s, r.simplified.eval s = (s.isActive ⟨0⟩ || s.isActive ⟨1⟩)) ∧
      ∀ step ∈ r.steps, ∀ s, step.before.eval s = step.after.eval s := by
  intro f
  refine ⟨_, rfl, ?_⟩
  obtain ⟨values, steps, _⟩ := sound_run (rfl : run f .deMorgan = .ok _)
  refine ⟨fun s => (values s).trans ?_, steps⟩
  exact (by decide : ∀ a b, (!(!a && !b)) = (a || b)) _ _

end SwitchingLogic.Simplify
