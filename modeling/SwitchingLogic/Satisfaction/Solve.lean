import SwitchingLogic.Formula.Basic
import SwitchingLogic.Random.ChaCha
import SwitchingLogic.Satisfaction.LocalSearch
import SwitchingLogic.Satisfaction.Search
import SwitchingLogic.Text.Keyword
import SwitchingLogic.TruthTable

/-!
# Solving

A formula is solved under constraints by one of three searches.  The complete ones are limited to
as many variables as a truth table; the local search is not, but an empty result of it proves
nothing.
-/

namespace SwitchingLogic.Satisfaction

inductive Method where
  | auto
  | branching
  | localSearch
  | exhaustive
  deriving DecidableEq, Repr

namespace Method

def name : Method → String
  | .auto => "auto"
  | .branching => "dpll"
  | .localSearch => "walksat"
  | .exhaustive => "brute-force"

def all : List Method := [.auto, .branching, .localSearch, .exhaustive]

def ofName? (s : String) : Option Method := all.find? fun m => m.name == s

def read (s : String) : Except Error Method :=
  match Text.keyword s with
  | "auto" => .ok .auto
  | "dpll" => .ok .branching
  | "walksat" | "walk-sat" => .ok .localSearch
  | "brute-force" | "brute_force" | "bruteforce" => .ok .exhaustive
  | _ => .error (.unknownMethod s)

end Method

structure Options where
  method : Method
  /-- Collect all solutions; the local search finds one at most. -/
  findAll : Bool
  /-- The greatest number of solutions to list. -/
  maxSolutions : Option Nat
  /-- The greatest number of flips of the local search. -/
  maxFlips : Nat
  /-- The probability that the local search flips any variable of a check. -/
  noise : Float
  /-- The seed of the choices of the local search. -/
  seed : UInt64
  constraints : List Constraint

def Options.default : Options := ⟨.auto, false, none, 10000, 0.5, 0, []⟩

/-- The beginning of a list of solutions, no longer than asked for. -/
def Options.limit {α : Type} (o : Options) (solutions : List α) : List α :=
  match o.maxSolutions with
  | some n => solutions.take n
  | none => solutions

structure Result where
  satisfiable : Bool
  /-- The values that solve the problem, one assignment of all variables for each solution. -/
  solutions : List Assignment
  /-- The search that was made. -/
  method : Method
  /-- The assignments that were looked at, or the flips made. -/
  steps : Nat
  vars : List Variable

def Method.resolve (n : Nat) : Method → Except Error Method
  | .auto => pure (if n ≤ TruthTable.maxVariables then .branching else .localSearch)
  | .branching => do
      checkCapacity .branching n TruthTable.maxVariables
      pure .branching
  | .exhaustive => do
      checkCapacity .exhaustiveSearch n TruthTable.maxVariables
      pure .exhaustive
  | .localSearch => pure .localSearch

/-- A probability: what is no number counts as one half, and all else is brought into range. -/
def probability (x : Float) : Float :=
  if x.isNaN then 0.5 else if x < 0 then 0 else if x > 1 then 1 else x

def found (p : Problem) (o : Options) : Method → List State × Nat
  | .exhaustive =>
      let search := p.rowSearch o.findAll
      (search.solutions, search.steps)
  | .localSearch =>
      let (state?, flips) := p.localSearch Random.Generator.chooser o.maxFlips
        (probability o.noise) (Random.Generator.ofSeed o.seed)
      (state?.toList, flips)
  | _ =>
      let search := p.branchSearch o.findAll
      (search.solutions, search.steps)

/-- Solve a formula.  The states found are checked once more and then written as assignments; how
many of these are listed has no influence on whether the formula is satisfiable. -/
def solve (f : Formula) (o : Options) : Except Error Result := do
  let p : Problem := ⟨f.expr, o.constraints⟩
  let method ← o.method.resolve p.vars.length
  let (states, steps) := found p o method
  let solutions := (states.filter p.isSolution).map fun s => s.assignment p.vars
  pure ⟨!solutions.isEmpty, o.limit solutions, method, steps, p.vars⟩

end SwitchingLogic.Satisfaction
