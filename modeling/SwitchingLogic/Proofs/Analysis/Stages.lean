import SwitchingLogic.Analysis
import SwitchingLogic.Proofs.Circuit.Netlist
import SwitchingLogic.Proofs.Conversion.Outcome
import SwitchingLogic.Proofs.Satisfaction.Solve

/-!
# Stages of an analysis

Every stage has a condition of its own under which it fails; three stages have none.  With the
default settings all stages are run, so each of them leaves either its result or, in the list of
failures, its cause, and no stage depends on what became of another one.
-/

namespace SwitchingLogic

/-- By default the candidate of the minimal sum of products is left out where there is none. -/
theorem Simplify.exists_run_auto (f : Formula) : ∃ r, run f .auto = .ok r :=
  ⟨_, rfl⟩

theorem Minimize.report_eq_error_iff {f : Formula} {names : List String} {e : Error} :
    report f names = .error e ↔
      TruthTable.maxVariables < f.vars.length ∧
        .capacity .truthTable f.vars.length TruthTable.maxVariables = e := by
  rw [report, Error.bind_eq_error_iff, TruthTable.build_eq_error_iff, or_iff_left]
  rintro ⟨_, _, failed⟩
  cases failed

theorem Karnaugh.Map.build_eq_error_iff {α : Type} [LogicFunction α] {f : α} {vs : List Variable}
    {includePos : Bool} {e : Error} :
    build f vs includePos = .error e ↔
      (vs.length < 2 ∨ 6 < vs.length) ∧ .unsupportedSize vs.length = e := by
  have sized : dimensions vs.length = .error e ↔
      (vs.length < 2 ∨ 6 < vs.length) ∧ .unsupportedSize vs.length = e := by
    rw [dimensions]
    split
    · rename_i outside
      exact ⟨fun failed => ⟨outside, Except.error.inj failed⟩, fun both => congrArg _ both.2⟩
    · rename_i inside
      exact iff_of_false (fun run => nomatch run) fun both => inside both.1
  rw [build, Error.bind_eq_error_iff, sized, or_iff_left]
  rintro ⟨_, _, failed⟩
  cases failed

/-- Beyond the reach of the complete searches the local search is made. -/
theorem Satisfaction.exists_solve_auto (f : Formula) {o : Options} (auto : o.method = .auto) :
    ∃ r, solve f o = .ok r := by
  have resolved (n : Nat) : o.method.resolve n =
      .ok (if n ≤ TruthTable.maxVariables then .branching else .localSearch) := by
    rw [auto]
    rfl
  exact ⟨_, solve_eq_ok f (resolved _)⟩

namespace Analysis

/-- A stage that is run leaves a cause of failure exactly if it fails. -/
theorem Outcome.exists_error?_iff {α : Type} (run : Unit → Except Error α) {condition : Prop}
    (fails : (∃ e, run () = .error e) ↔ condition) :
    (∃ e, (Outcome.of true run).error? = some e) ↔ condition := by
  rw [← fails, Outcome.of, if_pos rfl]
  cases run () with
  | ok r => exact iff_of_false nofun nofun
  | error e => exact iff_of_true ⟨e, rfl⟩ ⟨e, rfl⟩

/-- A stage that is run leaves its result if it leaves no cause of failure. -/
theorem Outcome.isSome_result?_of {α : Type} {selected : Bool} (run : Unit → Except Error α)
    (on : selected = true) :
    (Outcome.of selected run).result?.isSome = (Outcome.of selected run).error?.isNone := by
  rw [Outcome.of, if_pos on]
  cases run () with
  | ok r => rfl
  | error e => rfl

def isFound (a : Analysis) : Stage → Bool
  | .truthTable => a.truthTable.result?.isSome
  | .simplification => a.simplification.result?.isSome
  | .minimization => a.minimization.result?.isSome
  | .karnaughMap => a.karnaughMap.result?.isSome
  | .satisfiability => a.satisfiability.result?.isSome
  | .sumOfProducts => a.sumOfProducts.result?.isSome
  | .productOfSums => a.productOfSums.result?.isSome
  | .circuit => a.circuit.result?.isSome

theorem isFound_eq (f : Formula) {c : Config} (complete : c.stages = .all) (s : Stage) :
    (ofFormula f c).isFound s = ((ofFormula f c).error? s).isNone := by
  cases s <;>
  · simp only [isFound, error?, ofFormula]
    exact Outcome.isSome_result?_of _ (congrArg _ complete)

/-- A stage leaves its result, and adds its failure to those that it finds in the list. -/
theorem Stage.run_run {α : Type} (stage : Stage) (selected : Bool)
    (act : Unit → Except Error α) (failures : List (Stage × Error)) :
    (stage.run selected act).run failures = pure ((Outcome.of selected act).result?,
      failures ++ ((Outcome.of selected act).error?.map fun e => (stage, e)).toList) := by
  rw [Stage.run, Outcome.of]
  cases selected with
  | false => simp [Outcome.result?, Outcome.error?]
  | true =>
      cases act () with
      | ok result => simp [Outcome.result?, Outcome.error?]
      | error e => simp [Outcome.result?, Outcome.error?]

/-- What is collected while the stages run is the record of their outcomes. -/
theorem run_runStages (f : Formula) (c : Config) :
    (runStages f c).run [] = pure ((ofFormula f c).record, (ofFormula f c).failures) := by
  have listed : (ofFormula f c).failures = Stage.all.flatMap fun s =>
      (((ofFormula f c).error? s).map fun e => (s, e)).toList :=
    List.filterMap_eq_flatMap_toList _ _
  rw [record, listed]
  simp [runStages, Stage.run_run, Stage.all, ofFormula, error?]

theorem collect_eq (source : String) (c : Config) :
    collect source c = (analyze source c).map record := by
  rw [collect, analyze]
  cases Formula.parse source with
  | error e => rfl
  | ok f => exact congrArg (Except.ok ∘ Prod.fst) (run_runStages f c)

def failed (a : Analysis) : List Stage := a.failures.map Prod.fst

theorem failed_eq_filter (a : Analysis) :
    a.failed = Stage.all.filter fun s => (a.error? s).isSome := by
  rw [failed, failures]
  induction Stage.all with
  | nil => rfl
  | cons s rest ih =>
      rw [List.filterMap_cons, List.filter_cons]
      cases a.error? s with
      | none => exact ih
      | some e => exact congrArg _ ih

theorem mem_failed_iff (a : Analysis) (s : Stage) : s ∈ a.failed ↔ ∃ e, a.error? s = some e := by
  have listed : s ∈ Stage.all := by cases s <;> decide
  rw [failed_eq_filter, List.mem_filter, and_iff_right listed, Option.isSome_iff_exists]

/-- The default settings, with a seed for the local search.  By default any seed may be taken. -/
def Config.seeded (seed : UInt64) : Config :=
  { Config.default with satisfiability := { Satisfaction.Options.default with seed } }

example : Config.seeded 0 = .default := rfl

def Stage.Fails (f : Formula) : Stage → Prop
  | .truthTable | .minimization => 10 < f.vars.length
  | .karnaughMap => f.vars.length < 2 ∨ 6 < f.vars.length
  | .sumOfProducts => 10 < f.vars.length ∨
      Conversion.distribute .sumOfProducts f.expr =
        .error (.tooManyTerms .sumOfProducts Conversion.maxTerms)
  | .productOfSums => 10 < f.vars.length ∨
      Conversion.distribute .productOfSums f.expr =
        .error (.tooManyTerms .productOfSums Conversion.maxTerms)
  | .simplification | .satisfiability | .circuit => False

/-- All stages have been run: those whose condition is met are listed as failures, in the order of
the stages and once each, and the others have left their results. -/
structure Complete (f : Formula) (a : Analysis) : Prop where
  formula_eq : a.formula = f
  mem_failed : ∀ s, s ∈ a.failed ↔ s.Fails f
  ordered : a.failed.Sublist Stage.all
  nodup : a.failed.Nodup
  isFound_iff : ∀ s, a.isFound s = true ↔ s ∉ a.failed

/-- A stage fails with the default settings exactly under its condition. -/
theorem exists_error?_iff (f : Formula) (seed : UInt64) (s : Stage) :
    (∃ e, (ofFormula f (Config.seeded seed)).error? s = some e) ↔ s.Fails f := by
  cases s with
  | truthTable =>
      exact Outcome.exists_error?_iff (fun _ => TruthTable.build f.expr f.vars)
        (by simp [TruthTable.build_eq_error_iff, Stage.Fails, TruthTable.maxVariables])
  | simplification =>
      exact Outcome.exists_error?_iff (fun _ => Simplify.run f .auto)
        (Error.not_exists_eq_error (Simplify.exists_run_auto f))
  | minimization =>
      exact Outcome.exists_error?_iff (fun _ => Minimize.report f Minimize.allNames)
        (by simp [Minimize.report_eq_error_iff, Stage.Fails, TruthTable.maxVariables])
  | karnaughMap =>
      exact Outcome.exists_error?_iff (fun _ => Karnaugh.Map.build f f.vars true)
        (by simp [Karnaugh.Map.build_eq_error_iff, Stage.Fails])
  | satisfiability =>
      exact Outcome.exists_error?_iff
        (fun _ => Satisfaction.solve f (Config.seeded seed).satisfiability)
        (Error.not_exists_eq_error (Satisfaction.exists_solve_auto f rfl))
  | sumOfProducts =>
      exact Outcome.exists_error?_iff (fun _ => Conversion.convert f .sumOfProducts)
        Conversion.exists_convert_eq_error_iff
  | productOfSums =>
      exact Outcome.exists_error?_iff (fun _ => Conversion.convert f .productOfSums)
        Conversion.exists_convert_eq_error_iff
  | circuit =>
      have named : Circuit.isModuleName Circuit.Options.default.moduleName.toList = true := by
        decide
      exact Outcome.exists_error?_iff (fun _ => Circuit.build f (Config.seeded seed).circuit)
        (Error.not_exists_eq_error ⟨_, Circuit.build_of_isModuleName f named⟩)

theorem complete_ofFormula (f : Formula) (seed : UInt64) :
    Complete f (ofFormula f (Config.seeded seed)) where
  formula_eq := rfl
  mem_failed := fun s => (mem_failed_iff _ s).trans (exists_error?_iff f seed s)
  ordered := by
    rw [failed_eq_filter]
    exact List.filter_sublist
  nodup := by
    rw [failed_eq_filter]
    exact List.Nodup.filter _ (by decide)
  isFound_iff := by
    intro s
    rw [mem_failed_iff, isFound_eq f rfl s, Option.isNone_iff_eq_none,
      Option.eq_none_iff_forall_ne_some, not_exists]

/-- With the default settings a text is analyzed exactly if it can be read, and otherwise the
reason why it cannot is given.  The analysis is then complete. -/
theorem analyze_default (source : String) (seed : UInt64) :
    match Formula.parse source with
    | .error e => analyze source (Config.seeded seed) = .error e
    | .ok f => ∃ a, analyze source (Config.seeded seed) = .ok a ∧ Complete f a := by
  cases read : Formula.parse source with
  | error e => exact Error.bind_eq_error_iff.mpr (Or.inl read)
  | ok f =>
      exact ⟨_, Error.bind_eq_ok_iff.mpr ⟨f, read, rfl⟩, complete_ofFormula f seed⟩

end Analysis

end SwitchingLogic
