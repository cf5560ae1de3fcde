import SwitchingLogic.Proofs.Satisfaction.Solve

/-!
# Local search

The checks of a problem hold together exactly where it is solved, so a search that stops when no
check fails has a solution, whatever the choices were.  A check without variables has one value in
all states: if it fails, nothing solves the problem, and to give up there is right.

The search is followed on one state that is changed in place, where a draw from an empty range is a
failure of the search as a whole.  This never happens, and every flip that was only tried is undone.
-/

namespace SwitchingLogic

/-- The value of a check depends on its own variables only. -/
theorem Check.eval_congr {c : Check} {s t : State}
    (same : ∀ v ∈ c.vars, s.isActive v = t.isActive v) : c.eval s = c.eval t := by
  cases c with
  | conjunct e =>
      exact e.eval_congr fun v member => same v (VarSet.mem_toList.mpr member)
  | constraint c =>
      exact c.eval_congr fun v member => same v (VarSet.mem_toList.mpr member)

theorem Expr.eval_iff_operands (e : Expr) (s : State) :
    e.eval s = true ↔ ∀ f ∈ e.operands .and, f.eval s = true := by
  have decided : (∃ f ∈ e.operands .and, f.eval s = false) ↔ e.eval s = false :=
    decided_operands .and e s
  rw [← not_iff_not, Bool.not_eq_true, ← decided]
  simp only [not_forall, Bool.not_eq_true, exists_prop]

namespace Problem

variable {p : Problem}

/-- The checks take the problem apart. -/
theorem isSolution_iff_checks {s : State} :
    p.isSolution s = true ↔ ∀ c ∈ p.checks, c.eval s = true := by
  rw [isSolution_iff, p.expr.eval_iff_operands, checks, List.forall_mem_append,
    List.forall_mem_map, List.forall_mem_map]
  rfl

/-- What fails without variables fails in all states. -/
theorem not_isSolution_of_vars_eq_nil {c : Check} {s : State} (member : c ∈ p.checks)
    (constant : c.vars = []) (fails : c.eval s = false) (t : State) : p.isSolution t = false := by
  rw [← Bool.not_eq_true, isSolution_iff_checks]
  intro all
  have same : c.eval s = c.eval t := Check.eval_congr (by simp [constant])
  rw [all c member, fails] at same
  cases same

end Problem

/-! ## The search on one state -/

namespace Random.Chooser

variable {σ α : Type} (source : Chooser σ)

/-- Choose a number below a bound.  Below zero there is none. -/
def draw? : Nat → σ → Option (Nat × σ)
  | 0, _ => none
  | n + 1, r => some ((source.pick n r).1, (source.pick n r).2)

def member? (as : List α) (r : σ) : Option (α × σ) := do
  let (place, r) ← source.draw? as.length r
  let a ← as[place]?
  pure (a, r)

theorem member?_cons (a : α) (rest : List α) (r : σ) :
    source.member? (a :: rest) r =
      some ((a :: rest)[(source.pick rest.length r).1], (source.pick rest.length r).2) := by
  have inside := List.getElem?_eq_getElem (l := a :: rest) (source.pick rest.length r).1.isLt
  exact congrArg (Option.bind · fun a => some (a, (source.pick rest.length r).2)) inside

end Random.Chooser

namespace Problem

inductive Ending where
  /-- No check fails in the state. -/
  | found (s : State)
  /-- The failing check that was chosen has no variables. -/
  | stuck
  /-- All flips are used up, and some check still fails. -/
  | exhausted

def Ending.state? : Ending → Option State
  | .found s => some s
  | _ => none

/-- Flip one variable after the other, count the checks that hold, and flip it back. -/
def tryFlips (checks : List Check) : State → Variable × Nat → List Variable →
    (Variable × Nat) × State
  | s, best, [] => (best, s)
  | s, best, v :: rest =>
      let s := s.flip v
      let held := checks.countP fun c => c.eval s
      let s := s.flip v
      tryFlips checks s (if held > best.2 then (v, held) else best) rest

variable {σ : Type} (source : Random.Chooser σ) (noise : Float) (checks : List Check)

def chooseFlip? (s : State) (vs : List Variable) (r : σ) : Option (Variable × State × σ) := do
  let (random, r) := source.coin noise r
  if random then
    let (v, r) ← source.member? vs r
    pure (v, s, r)
  else
    let first ← vs.head?
    let (best, s) := tryFlips checks s (first, 0) vs
    pure (best.1, s, r)

/-- Repair a state by at most `flips` flips, or fail at a draw from an empty range. -/
def repair? (p : Problem) : Nat → State → Nat → σ → Option (Ending × Nat)
  | 0, s, made, _ => some (if p.isSolution s then .found s else .exhausted, made)
  | flips + 1, s, made, r =>
      let failing := checks.filter fun c => !c.eval s
      if failing.isEmpty then some (.found s, made)
      else do
        let (c, r) ← source.member? failing r
        if c.vars.isEmpty then some (.stuck, made)
        else do
          let (v, s, r) ← chooseFlip? source noise checks s c.vars r
          repair? p flips (s.flip v) (made + 1) r

def localSearch? (p : Problem) (maxFlips : Nat) (r : σ) : Option (Ending × Nat) :=
  let (active, r) := source.sample 0.5 p.vars r
  repair? source noise p.checks p maxFlips (State.ofList active) 0 r

/-- After all tries the state is what it was. -/
theorem tryFlips_eq (s : State) (best : Variable × Nat) (vs : List Variable) :
    tryFlips checks s best vs = (vs.foldl (betterFlip checks s) best, s) := by
  induction vs generalizing best with
  | nil => rfl
  | cons v rest ih =>
      rw [tryFlips, State.flip_flip, ih]
      rfl

theorem chooseFlip?_cons (s : State) (v : Variable) (rest : List Variable) (r : σ) :
    chooseFlip? source noise checks s (v :: rest) r =
      some ((chooseFlip source noise checks s v rest r).1, s,
        (chooseFlip source noise checks s v rest r).2) := by
  unfold chooseFlip? chooseFlip
  obtain ⟨random, next⟩ := source.coin noise r
  cases random with
  | true =>
      simp only [source.member?_cons]
      rfl
  | false =>
      simp only [tryFlips_eq]
      rfl

/-! ## The end of a search -/

/-- What the end of a search means for the problem. -/
structure Ends (p : Problem) (maxFlips : Nat) (ending : Ending) (flips : Nat) : Prop where
  /-- No more flips are made than allowed. -/
  le : flips ≤ maxFlips
  /-- A state that was found is a solution. -/
  solves : ∀ s, ending = .found s → p.isSolution s = true
  /-- The search gives up only if there is no solution at all. -/
  hopeless : ending = .stuck → ∀ s, p.isSolution s = false
  /-- Otherwise it goes on as long as it may. -/
  exhausts : ending = .exhausted → flips = maxFlips

namespace Ends

variable {p : Problem} {maxFlips flips : Nat}

theorem of_found {s : State} (le : flips ≤ maxFlips) (solved : p.isSolution s = true) :
    p.Ends maxFlips (.found s) flips := by
  refine ⟨le, ?_, nofun, nofun⟩
  rintro _ ⟨⟩
  exact solved

theorem of_stuck (le : flips ≤ maxFlips) (hopeless : ∀ s, p.isSolution s = false) :
    p.Ends maxFlips .stuck flips :=
  ⟨le, nofun, fun _ => hopeless, nofun⟩

theorem of_exhausted : p.Ends maxFlips .exhausted maxFlips :=
  ⟨Nat.le_refl _, nofun, nofun, fun _ => rfl⟩

end Ends

/-- One step of a repair: a variable of the chosen check is flipped, if it has any. -/
theorem repair_succ {p : Problem} {checks : List Check} {s : State} {first : Check}
    {rest : List Check} (failures : (checks.filter fun c => !c.eval s) = first :: rest)
    (flips made : Nat) (r : σ) :
    p.repair source noise checks (flips + 1) s made r =
      match ((first :: rest)[(source.pick rest.length r).1]).vars with
      | [] => (none, made)
      | v :: others =>
          let choice := chooseFlip source noise checks s v others (source.pick rest.length r).2
          p.repair source noise checks flips (s.flip choice.1) (made + 1) choice.2 := by
  rw [repair]
  revert failures
  generalize (checks.filter fun c => !c.eval s) = failing
  rintro rfl
  rfl

/-- The repair from any state, by any choices, has an end. -/
theorem exists_repair?_eq (p : Problem) (flips : Nat) (s : State) (made : Nat) (r : σ) :
    ∃ ending total, repair? source noise p.checks p flips s made r = some (ending, total) ∧
      p.repair source noise p.checks flips s made r = (ending.state?, total) ∧
      p.Ends (made + flips) ending total := by
  induction flips generalizing s made r with
  | zero =>
      rw [repair?, repair]
      cases solved : p.isSolution s with
      | true => exact ⟨_, _, rfl, rfl, .of_found (Nat.le_refl _) solved⟩
      | false => exact ⟨_, _, rfl, rfl, .of_exhausted⟩
  | succ flips ih =>
      cases failures : p.checks.filter fun c => !c.eval s with
      | nil =>
          have solved : p.isSolution s = true := by
            rw [isSolution_iff_checks]
            intro c member
            simpa using List.filter_eq_nil_iff.mp failures c member
          refine ⟨.found s, made, ?_, ?_, .of_found (Nat.le_add_right _ _) solved⟩
          · simp only [repair?, failures, List.isEmpty_nil, if_true]
          · simp only [repair, failures, Ending.state?]
      | cons first rest =>
          have failing : ∀ c ∈ first :: rest, c ∈ p.checks ∧ c.eval s = false := by
            intro c member
            rw [← failures] at member
            simpa using member
          simp only [repair?, repair_succ source noise failures, failures, List.isEmpty_cons,
            Bool.false_eq_true, if_false, source.member?_cons, Option.bind_eq_bind,
            Option.bind_some]
          obtain ⟨place, next⟩ := source.pick rest.length r
          obtain ⟨member, fails⟩ := failing _ (List.getElem_mem place.isLt)
          dsimp only
          cases constant : ((first :: rest)[place]).vars with
          | nil =>
              have hopeless := not_isSolution_of_vars_eq_nil member constant fails
              exact ⟨_, _, rfl, rfl, .of_stuck (Nat.le_add_right _ _) hopeless⟩
          | cons v others =>
              obtain ⟨ending, total, done, repaired, ends⟩ :=
                ih (s.flip (chooseFlip source noise p.checks s v others next).1) (made + 1)
                  (chooseFlip source noise p.checks s v others next).2
              refine ⟨ending, total, ?_, repaired, ?_⟩
              · rw [chooseFlip?_cons]
                exact done
              · rwa [Nat.add_right_comm, Nat.add_assoc] at ends

/-- The search has an end for every source of choices. -/
theorem exists_localSearch?_eq (p : Problem) (maxFlips : Nat) (r : σ) :
    ∃ ending flips, localSearch? source noise p maxFlips r = some (ending, flips) ∧
      p.localSearch source maxFlips noise r = (ending.state?, flips) ∧
      p.Ends maxFlips ending flips := by
  have repaired := exists_repair?_eq source noise p maxFlips
    (State.ofList (source.sample 0.5 p.vars r).1) 0 (source.sample 0.5 p.vars r).2
  rwa [Nat.zero_add] at repaired

/-- Checking the state that was found once more does not discard it. -/
theorem Ends.filter_toList {p : Problem} {maxFlips flips : Nat} {ending : Ending}
    (ends : p.Ends maxFlips ending flips) :
    ending.state?.toList.filter p.isSolution = ending.state?.toList := by
  rw [List.filter_eq_self]
  intro s listed
  cases ending with
  | found t =>
      cases List.mem_singleton.mp listed
      exact ends.solves s rfl
  | stuck => cases listed
  | exhausted => cases listed

end Problem

/-! ## Solving by local search -/

namespace Satisfaction

def Options.localSearch (o : Options) (f : Formula) : Option State × Nat :=
  Problem.localSearch Random.Generator.chooser ⟨f.expr, o.constraints⟩ o.maxFlips
    (probability o.noise) (Random.Generator.ofSeed o.seed)

/-- The outcome is that of the local search: a state found makes the problem satisfiable, and it is
listed unless no solution is to be listed.  An assignment that is listed gives values to all
variables of the problem, and these solve it. -/
structure Result.Keeps (f : Formula) (o : Options) (search : Option State × Nat) (r : Result) :
    Prop where
  method_eq : r.method = .localSearch
  vars_eq : r.vars = (Problem.mk f.expr o.constraints).vars
  satisfiable_eq : r.satisfiable = search.1.isSome
  solutions_eq : r.solutions = (o.report search.1.toList).map fun s => s.assignment r.vars
  solves : ∀ a ∈ r.solutions, a.map Prod.fst = r.vars ∧
    f.expr.eval (State.ofAssignment a) = true ∧
      ∀ c ∈ o.constraints, c.eval (State.ofAssignment a) = true
  steps_eq : r.steps = search.2
  steps_le : r.steps ≤ o.maxFlips

theorem Options.report_toList (o : Options) (state? : Option State) :
    o.report state?.toList = o.limit state?.toList := by
  have first : state?.toList.take 1 = state?.toList := by cases state? <;> rfl
  rw [report, first, ite_self]

theorem keeps_conclude (f : Formula) (o : Options) :
    (conclude f o .localSearch).Keeps f o (o.localSearch f) := by
  obtain ⟨ending, flips, _, searched, ends⟩ := Problem.exists_localSearch?_eq
    Random.Generator.chooser (probability o.noise) ⟨f.expr, o.constraints⟩ o.maxFlips
    (Random.Generator.ofSeed o.seed)
  have made : found ⟨f.expr, o.constraints⟩ o .localSearch = (ending.state?.toList, flips) := by
    rw [found, searched]
  have steps : (conclude f o .localSearch).steps = flips := congrArg Prod.snd made
  rw [Options.localSearch, searched]
  refine ⟨rfl, rfl, ?_, ?_, fun _ => solves_of_mem_solutions, steps, steps.trans_le ends.le⟩
  · rw [conclude, made, ends.filter_toList, List.isEmpty_map]
    cases ending.state? <;> rfl
  · rw [conclude, made, ends.filter_toList, o.report_toList]
    exact o.limit_map _ _

theorem exists_of_satisfiable {f : Formula} {o : Options} {r : Result} (done : solve f o = .ok r)
    (satisfiable : r.satisfiable = true) :
    ∃ s, f.expr.eval s = true ∧ ∀ c ∈ o.constraints, c.eval s = true := by
  let p : Problem := ⟨f.expr, o.constraints⟩
  obtain ⟨method, resolved, _⟩ := Error.bind_eq_ok_iff.mp done
  cases Except.ok.inj ((solve_eq_ok f resolved).symm.trans done)
  rw [conclude, List.isEmpty_map, Bool.not_eq_true', List.isEmpty_eq_false_iff_exists_mem]
    at satisfiable
  obtain ⟨s, listed⟩ := satisfiable
  have solved : p.isSolution s = true := (List.mem_filter.mp listed).2
  exact ⟨s, Problem.isSolution_iff.mp solved⟩

/-- Whatever the choices are, a local search does not draw from an empty range, makes no more flips
than allowed, finds nothing but solutions, and gives up early only where there is none.  So solving
by it keeps the state that was found; and by no search is a problem called satisfiable that has no
solution. -/
theorem localSearch_sound :
    (∀ {σ : Type} (source : Random.Chooser σ) (noise : Float) (p : Problem) (maxFlips : Nat)
        (r : σ), ∃ ending flips,
      p.localSearch? source noise maxFlips r = some (ending, flips) ∧
        p.localSearch source maxFlips noise r = (ending.state?, flips) ∧
        p.Ends maxFlips ending flips) ∧
    (∀ (f : Formula) (o : Options),
      o.method.resolve (Problem.mk f.expr o.constraints).vars.length = .ok .localSearch →
        ∃ r, solve f o = .ok r ∧ r.Keeps f o (o.localSearch f)) ∧
    ∀ (f : Formula) (o : Options) (r : Result), solve f o = .ok r → r.satisfiable = true →
      ∃ s, f.expr.eval s = true ∧ ∀ c ∈ o.constraints, c.eval s = true := by
  refine ⟨fun source noise => Problem.exists_localSearch?_eq source noise, ?_, ?_⟩
  · intro f o resolved
    exact ⟨_, solve_eq_ok f resolved, keeps_conclude f o⟩
  · intro f o r done
    exact exists_of_satisfiable done

example : Method.auto.resolve 11 = .ok .localSearch := rfl

/-- With coins that always show tails the two letters of `AB` are made true one after the other. -/
example : Problem.localSearch ⟨fun _ r => (false, r), fun _ r => (0, r)⟩
    ⟨.binary .and (.var ⟨0⟩) (.var ⟨1⟩), []⟩ 5 0.5 () = (some (.ofList [⟨0⟩, ⟨1⟩]), 2) := by
  decide +kernel

end Satisfaction

end SwitchingLogic
