import SwitchingLogic.Proofs.Implicant.EspressoTerms
import SwitchingLogic.Proofs.Minimize.Equivalence
import SwitchingLogic.Simplify

/-!
# Minimized expressions of a function

The terms that an algorithm chooses and their order of display are those of the function.  Formulas
with the same values therefore have the same minimized expression, however they are written and
whatever further variables they mention, and a minimized expression is its own minimized
expression.
-/

namespace SwitchingLogic

open Implicant

theorem Term.toProduct_free : free.toProduct = .const true := by
  have none : free.literals = [] := by decide +kernel
  rw [toProduct, joined, none, List.map_nil, Expr.join]
  rfl

variable {vs us : List Variable} {rows rows' : List Nat} {cubes : List Implicant}
  {f : State → Bool}

namespace Implicant

/-- A sum of products over a list of variables mentions no others. -/
theorem mem_of_contains_vars_sumOfProducts (stands : ∀ a ∈ cubes, a.Over vs) (nodup : vs.Nodup)
    {v : Variable} (member : (sumOfProducts cubes vs).vars.contains v = true) : v ∈ vs := by
  obtain ⟨e, listed, member⟩ := Expr.exists_of_contains_vars_join member
  obtain ⟨a, chosen, rfl⟩ := List.mem_map.mp listed
  obtain ⟨value, fixed⟩ := (Term.contains_vars_iff _ v).mp (Term.contains_vars_of_toProduct member)
  exact (stands a chosen).mem_of_fixes_toTerm nodup fixed

/-- The order of display is an order of terms. -/
theorem map_toTerm_sortForDisplay (ordered : State.IsOrdered vs) (stands : ∀ a ∈ cubes, a.Over vs) :
    (sortForDisplay cubes vs).map (·.toTerm vs) = Term.sort (cubes.map (·.toTerm vs)) := by
  rw [sortForDisplay, List.map_map, Term.sort]
  dsimp only
  rw [List.map_mergeSort (s := fun s t => (Term.sizeOrder s t).isLE), List.map_map]
  · rfl
  · intro k member l member'
    obtain ⟨a, listed, rfl⟩ := List.mem_map.mp member
    obtain ⟨b, listed', rfl⟩ := List.mem_map.mp member'
    rw [Function.comp_apply, Function.comp_apply, Term.sizeOrder,
      (stands a listed).literalCount_toTerm ordered, (stands b listed').literalCount_toTerm ordered]

theorem sumOfProducts_sortForDisplay (ordered : State.IsOrdered vs)
    (stands : ∀ a ∈ cubes, a.Over vs) :
    sumOfProducts (sortForDisplay cubes vs) vs =
      Expr.disj ((Term.sort (cubes.map (·.toTerm vs))).map Term.toProduct) := by
  rw [← map_toTerm_sortForDisplay ordered stands, List.map_map]
  rfl

theorem over_free (fits : vs.length ≤ maxWidth) : (free vs.length).Over vs :=
  ⟨wellFormed_free fits, rfl⟩

theorem toTerm_free (fits : vs.length ≤ maxWidth) (nodup : vs.Nodup) :
    (free vs.length).toTerm vs = .free := by
  refine Term.ext_fixes fun v value => ?_
  rw [Term.fixes_free, ← Bool.not_eq_true]
  intro fixed
  have stands := over_free fits
  obtain ⟨position, inside, rfl⟩ := List.getElem_of_mem (stands.mem_of_fixes_toTerm nodup fixed)
  have cared := ((stands.fixes_toTerm_iff nodup inside value).mp fixed).1
  exact Bool.noConfusion (BitVec.getLsbD_zero.symm.trans cared)

end Implicant

namespace Algorithm

theorem over_of_mem_cover (a : Algorithm) (table : IsTable f vs rows) {c : Implicant}
    (member : c ∈ (a.cover rows vs.length).1) : c.Over vs :=
  ((a.isCover_cover table.fits table.below).implicants c member).toOver

/-- On all tables of a function an algorithm chooses the same terms. -/
theorem map_toTerm_cover_eq (a : Algorithm) (table : IsTable f vs rows)
    (table' : IsTable f us rows') :
    (a.cover rows vs.length).1.map (·.toTerm vs) =
      (a.cover rows' us.length).1.map (·.toTerm us) := by
  have greedy := Chart.greedyCover_eq table table'
  cases a with
  | quineMcCluskey =>
      rw [cover, cover]
      dsimp only
      rw [greedy]
      exact Chart.map_toTerm_select_eq table table' _
  | petrick =>
      rw [cover, cover]
      dsimp only
      rw [Chart.petrickCover_eq, Chart.petrickCover_eq, greedy]
      exact Chart.map_toTerm_select_eq table table' _
  | espresso => exact map_toTerm_espresso_eq table table'

/-- No cube is chosen when there is no row. -/
theorem cover_eq_nil (a : Algorithm) (table : IsTable f vs rows) (never : ∀ s, f s = false) :
    (a.cover rows vs.length).1 = [] := by
  refine List.eq_nil_iff_forall_not_mem.mpr fun c member => ?_
  obtain ⟨_, implies⟩ := table.isImplicant_iff.mp
    ((a.isCover_cover table.fits table.below).implicants c member)
  have holds := Term.containsState_positive (c.hasConflict_toTerm vs)
  exact Bool.noConfusion ((never _).symm.trans (implies _ holds))

def chosen (a : Algorithm) (t : TruthTable) : List Implicant :=
  if t.isContradiction then []
  else if t.isTautology then [.free t.vars.length]
  else (a.cover t.minterms t.vars.length).1

end Algorithm

namespace Formula

theorem isOrdered_vars (p : Formula) : State.IsOrdered p.vars :=
  State.isOrdered_toList p.expr.vars

theorem isTable (p : Formula) (small : p.vars.length ≤ maxWidth)
    (value : ∀ s, p.expr.eval s = f s) :
    IsTable f p.vars (TruthTable.tabulate p.expr p.vars).minterms where
  ordered := p.isOrdered_vars
  fits := small
  depends s t same := by
    rw [← value, ← value]
    exact p.dependsOn_vars s t same
  mem_rows row := by
    rw [← value]
    exact TruthTable.mem_rowsWith_tabulate p.expr p.vars

def table (p : Formula) : TruthTable := TruthTable.tabulate p.expr p.vars

theorem isContradiction_table (p : Formula) :
    p.table.isContradiction = true ↔ ∀ s, p.expr.eval s = false :=
  TruthTable.isContradiction_iff p.dependsOn_vars p.nodup_vars p.length_vars_le

theorem isTautology_table (p : Formula) :
    p.table.isTautology = true ↔ ∀ s, p.expr.eval s = true :=
  TruthTable.isTautology_iff p.dependsOn_vars p.nodup_vars p.length_vars_le

theorem over_of_mem_chosen (p : Formula) (small : p.vars.length ≤ maxWidth) (a : Algorithm)
    {c : Implicant} (member : c ∈ a.chosen p.table) : c.Over p.vars := by
  rw [Algorithm.chosen] at member
  split at member
  · cases member
  · split at member
    · cases List.mem_singleton.mp member
      exact over_free small
    · exact a.over_of_mem_cover (p.isTable small fun s => rfl) member

theorem map_toTerm_chosen_eq {p q : Formula} (small : p.vars.length ≤ maxWidth)
    (small' : q.vars.length ≤ maxWidth) (same : ∀ s, p.expr.eval s = q.expr.eval s)
    (a : Algorithm) :
    (a.chosen p.table).map (·.toTerm p.vars) = (a.chosen q.table).map (·.toTerm q.vars) := by
  have never : p.table.isContradiction = q.table.isContradiction := by
    rw [Bool.eq_iff_iff, p.isContradiction_table, q.isContradiction_table]
    exact forall_congr' fun s => by rw [same]
  have always : p.table.isTautology = q.table.isTautology := by
    rw [Bool.eq_iff_iff, p.isTautology_table, q.isTautology_table]
    exact forall_congr' fun s => by rw [same]
  rw [Algorithm.chosen, Algorithm.chosen, never, always]
  split
  · rfl
  · split
    · exact congrArg (fun t => [t])
        ((toTerm_free small p.nodup_vars).trans (toTerm_free small' q.nodup_vars).symm)
    · exact a.map_toTerm_cover_eq (p.isTable small same) (q.isTable small' fun s => rfl)

end Formula

namespace Minimize

theorem run_implicants (p : Formula) (a : Algorithm) :
    (run p p.table a).implicants = sortForDisplay (a.chosen p.table) p.vars :=
  a.coverTable_fst p.table

theorem run_expr (p : Formula) (a : Algorithm) :
    (run p p.table a).expr =
      sumOfProducts (sortForDisplay (a.chosen p.table) p.vars) p.vars :=
  congrArg (sumOfProducts · p.vars) (run_implicants p a)

/-- What an algorithm makes of a formula depends on the values of the formula only. -/
theorem run_expr_eq {p q : Formula} (small : p.vars.length ≤ maxWidth)
    (small' : q.vars.length ≤ maxWidth) (same : ∀ s, p.expr.eval s = q.expr.eval s)
    (a : Algorithm) : (run p p.table a).expr = (run q q.table a).expr := by
  have displayed (p : Formula) (small : p.vars.length ≤ maxWidth) : (run p p.table a).expr =
      Expr.disj ((Term.sort ((a.chosen p.table).map (·.toTerm p.vars))).map Term.toProduct) := by
    rw [← sumOfProducts_sortForDisplay p.isOrdered_vars fun c => p.over_of_mem_chosen small a,
      run_expr]
  rw [displayed p small, displayed q small', Formula.map_toTerm_chosen_eq small small' same]

/-- A minimized expression has no other variables than the formula. -/
theorem length_vars_run_le (p : Formula) (small : p.vars.length ≤ maxWidth) (a : Algorithm) :
    (run p p.table a).expr.vars.toList.length ≤ p.vars.length := by
  have stands : ∀ c ∈ (a.coverTable p.table).1, c.Over p.vars := by
    intro c listed
    rw [a.coverTable_fst] at listed
    exact p.over_of_mem_chosen small a ((sortForDisplay_perm _ _).mem_iff.mp listed)
  refine VarSet.length_toList_mono fun v member => VarSet.mem_toList.mp ?_
  exact mem_of_contains_vars_sumOfProducts stands p.nodup_vars member

end Minimize

namespace Simplify

/-- The two-level simplification is the minimized expression. -/
theorem quineMcCluskey_eq (p : Formula) (small : p.vars.length ≤ TruthTable.maxVariables) :
    quineMcCluskey p = .ok (Minimize.run p p.table .quineMcCluskey).expr := by
  have fits : p.vars.length ≤ maxWidth := small.trans (by decide)
  have table := (TruthTable.build_eq_ok_iff p.expr p.vars).mpr ⟨small, rfl⟩
  refine Error.bind_eq_ok_iff.mpr ⟨p.table, table, ?_⟩
  rw [Minimize.run_expr, Algorithm.chosen]
  by_cases never : p.table.isContradiction = true
  · have always : ¬ p.table.isTautology = true := by
      rw [p.isContradiction_table] at never
      rw [p.isTautology_table]
      exact fun always => Bool.noConfusion ((never State.allFalse).symm.trans (always _))
    have none := Algorithm.quineMcCluskey.cover_eq_nil (p.isTable fits fun _ => rfl)
      (p.isContradiction_table.mp never)
    rw [if_neg always, if_pos never]
    exact congrArg
      (fun cubes => Except.ok (sumOfProducts (sortForDisplay cubes p.vars) p.vars)) none
  · rw [if_neg never]
    by_cases always : p.table.isTautology = true
    · have stands : ∀ a ∈ [free p.vars.length], a.Over p.vars :=
        List.forall_mem_singleton.mpr (over_free fits)
      rw [if_pos always, if_pos always]
      change Except.ok _ = Except.ok (sumOfProducts (sortForDisplay [free p.vars.length] _) _)
      rw [sumOfProducts_sortForDisplay p.isOrdered_vars stands, List.map_singleton,
        toTerm_free fits p.nodup_vars]
      rw [Term.sort, List.mergeSort_singleton, List.map_singleton, Term.toProduct_free,
        Expr.disj, Expr.join]
    · rw [if_neg always, if_neg always]
      rfl

end Simplify

namespace Minimize

/-- There is a report for whatever names, and its results are these expressions, one for each
algorithm asked for. -/
def MinimizesTo (p : Formula) (form : Algorithm → Expr) : Prop :=
  ∀ names, ∃ r, report p names = .ok r ∧
    (r.results.map fun result : Result => (result.algorithm, result.expr)).Perm
      ((names.filterMap algorithm?).map fun a => (a, form a))

/-- Up to ten variables there is a report with a run of each algorithm asked for. -/
theorem exists_report_perm (p : Formula) (small : p.vars.length ≤ TruthTable.maxVariables)
    (names : List String) : ∃ r, report p names = .ok r ∧
      r.results.Perm ((names.filterMap algorithm?).map (run p p.table)) := by
  have table := (TruthTable.build_eq_ok_iff p.expr p.vars).mpr ⟨small, rfl⟩
  exact ⟨_, Error.bind_eq_ok_iff.mpr ⟨p.table, table, rfl⟩, List.mergeSort_perm _ _⟩

theorem minimizesTo_run (p : Formula) (small : p.vars.length ≤ TruthTable.maxVariables) :
    MinimizesTo p fun a => (run p p.table a).expr := by
  intro names
  obtain ⟨r, done, runs⟩ := exists_report_perm p small names
  refine ⟨r, done, (runs.map _).trans ?_⟩
  rw [List.map_map]
  exact List.Perm.refl _

/-- All formulas with the same values have the same minimized expressions. -/
theorem minimizesTo_of_eval_eq {p q : Formula} (small : p.vars.length ≤ TruthTable.maxVariables)
    (small' : q.vars.length ≤ TruthTable.maxVariables)
    (same : ∀ s, p.expr.eval s = q.expr.eval s) :
    MinimizesTo q fun a => (run p p.table a).expr := by
  have forms : (fun a => (run p p.table a).expr) = fun a => (run q q.table a).expr :=
    funext (run_expr_eq (small.trans (by decide)) (small'.trans (by decide)) same)
  rw [forms]
  exact minimizesTo_run q small'

/-- Two formulas with up to ten variables and the same values in all states have, for each
algorithm, the same minimized expression.  A formula of one of these expressions has them, too, and
the two-level simplification is the one by prime implicants and greedy choice. -/
theorem exists_minimizesTo (p q : Formula) (small : p.vars.length ≤ TruthTable.maxVariables)
    (small' : q.vars.length ≤ TruthTable.maxVariables)
    (same : ∀ s, p.expr.eval s = q.expr.eval s) :
    ∃ form : Algorithm → Expr, MinimizesTo p form ∧ MinimizesTo q form ∧
      (∀ a, ∀ g : Formula, g.expr = form a → MinimizesTo g form) ∧
      Simplify.quineMcCluskey p = .ok (form .quineMcCluskey) ∧
      Simplify.quineMcCluskey q = .ok (form .quineMcCluskey) := by
  have fits : p.vars.length ≤ maxWidth := small.trans (by decide)
  refine ⟨fun a => (run p p.table a).expr, minimizesTo_run p small,
    minimizesTo_of_eval_eq small small' same, fun a g result => ?_,
    Simplify.quineMcCluskey_eq p small, ?_⟩
  · have fewer : g.vars.length ≤ p.vars.length := by
      rw [Formula.vars, result]
      exact length_vars_run_le p fits a
    refine minimizesTo_of_eval_eq small (fewer.trans small) fun s => ?_
    rw [result]
    exact (eval_run p small a s).symm
  · refine (Simplify.quineMcCluskey_eq q small').trans (congrArg Except.ok ?_)
    exact (run_expr_eq fits (small'.trans (by decide)) same _).symm

/-- A variable written in two ways, the second one with another variable that does not matter. -/
theorem exists_minimizesTo_redundant :
    let p : Formula := ⟨"A", "A", .var ⟨0⟩⟩
    let q : Formula := ⟨"AB+A!B", "A·B+A·!B", .binary .or
      (.binary .and (.var ⟨0⟩) (.var ⟨1⟩)) (.binary .and (.var ⟨0⟩) (.not (.var ⟨1⟩)))⟩
    p.vars.length = 1 ∧ q.vars.length = 2 ∧ (∀ s, p.expr.eval s = q.expr.eval s) ∧
      ∃ form : Algorithm → Expr, MinimizesTo p form ∧ MinimizesTo q form ∧
        (∀ a, ∀ g : Formula, g.expr = form a → MinimizesTo g form) ∧
        Simplify.quineMcCluskey p = .ok (form .quineMcCluskey) ∧
        Simplify.quineMcCluskey q = .ok (form .quineMcCluskey) := by
  intro p q
  have one : p.vars.length = 1 := by decide
  have two : q.vars.length = 2 := by decide
  have same (s : State) : p.expr.eval s = q.expr.eval s :=
    (by decide : ∀ a b : Bool, a = (a && b || a && !b)) _ _
  exact ⟨one, two, same, exists_minimizesTo p q (by rw [one]; decide) (by rw [two]; decide) same⟩

end Minimize

end SwitchingLogic
