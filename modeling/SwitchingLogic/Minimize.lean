import SwitchingLogic.Formula.Basic
import SwitchingLogic.Implicant.Chart
import SwitchingLogic.Implicant.Espresso
import SwitchingLogic.Text.Keyword
import SwitchingLogic.TruthTable

/-!
# Two-level minimization

A function is written as a sum of few, large products.  The truth table gives the rows to cover,
one of three algorithms chooses the cubes, and the results of several algorithms are ranked by a
score.  Constant functions need no algorithm.
-/

namespace SwitchingLogic

inductive Algorithm where
  | quineMcCluskey
  | petrick
  | espresso
  deriving DecidableEq, Repr

namespace Algorithm

def all : List Algorithm := [.quineMcCluskey, .petrick, .espresso]

def name : Algorithm → String
  | .quineMcCluskey => "quine-mccluskey"
  | .petrick => "petrick"
  | .espresso => "espresso"

def read (s : String) : Except Error Algorithm :=
  match Text.keyword s with
  | "quine-mccluskey" | "quine_mccluskey" | "quinemccluskey" | "qm" => .ok .quineMcCluskey
  | "petrick" => .ok .petrick
  | "espresso" => .ok .espresso
  | _ => .error (.unknownAlgorithm s)

/-- The cubes that the algorithm chooses for a set of rows, and the number of prime implicants
among which it chose. -/
def cover (a : Algorithm) (rows : List Nat) (width : Nat) : List Implicant × Nat :=
  match a with
  | .quineMcCluskey =>
      let chart := Chart.ofRows rows width
      (chart.select chart.greedyCover, chart.primes.length)
  | .petrick =>
      let chart := Chart.ofRows rows width
      (chart.select chart.petrickCover, chart.primes.length)
  | .espresso =>
      let cubes := Implicant.espresso rows width
      (cubes, cubes.length)

/-- The choice over any number of positions.  Every algorithm starts with the cubes of the single
rows, and there is no choice if these cannot be made. -/
def cover? (a : Algorithm) (rows : List Nat) (width : Nat) : Option (List Implicant × Nat) :=
  (Implicant.minterms? rows width).map fun _ => a.cover rows width

/-- The cubes for a table, in the order of display, and the number of prime implicants. -/
def coverTable (a : Algorithm) (t : TruthTable) : List Implicant × Nat :=
  let width := t.vars.length
  let (cubes, primeCount) :=
    if t.isContradiction then ([], 0)
    else if t.isTautology then ([.free width], 1)
    else a.cover t.minterms width
  (Implicant.sortForDisplay cubes t.vars, primeCount)

end Algorithm

namespace Minimize

/-- The mark of a result: fifty for the relative saving in length, thirty for a run of up to ten
seconds and less for a longer one, and twenty for a text of few characters. -/
def score (reduction seconds : Float) (length : Nat) : Float :=
  let saving := if reduction > 0 then reduction else 0
  let speed := if seconds ≤ 10 then 1 else 10 / seconds
  let rest := 1 - Float.ofNat length / 100
  let brevity := if rest > 0 then rest else 0
  50 * saving + 30 * speed + 20 * brevity

def reduction (before after : Nat) : Float :=
  if before = 0 then 0 else (Float.ofNat before - Float.ofNat after) / Float.ofNat before

structure Result where
  algorithm : Algorithm
  expr : Expr
  implicants : List Implicant
  primeCount : Nat
  /-- The saving in length, in percent. -/
  reduction : Float
  score : Float

/-- The results for all algorithms asked for, the best one first, and the names of those that do
not exist. -/
structure Report where
  given : Expr
  vars : List Variable
  results : List Result
  failures : List (String × Error)

/-- Run one algorithm.  The score counts lengths against the text of the formula as written, and
no time. -/
def run (f : Formula) (t : TruthTable) (a : Algorithm) : Result :=
  let (cubes, primeCount) := a.coverTable t
  let expr := Implicant.sumOfProducts cubes t.vars
  let saving := reduction f.source.length expr.textLength
  ⟨a, expr, cubes, primeCount, 100 * saving, score saving 0 expr.textLength⟩

def allNames : List String := Algorithm.all.map Algorithm.name

def algorithm? (name : String) : Option Algorithm :=
  match Algorithm.read name with
  | .ok a => some a
  | .error _ => none

def failure? (name : String) : Option (String × Error) :=
  match Algorithm.read name with
  | .ok _ => none
  | .error e => some (name, e)

def report (f : Formula) (names : List String) : Except Error Report := do
  let t ← TruthTable.build f.expr f.vars
  let results := (names.filterMap algorithm?).map (run f t)
  pure ⟨f.expr, t.vars, results.mergeSort fun a b => !(a.score < b.score),
    names.filterMap failure?⟩

def Report.best? (r : Report) : Option Result := r.results.head?

def Report.get? (r : Report) (a : Algorithm) : Option Result :=
  r.results.find? fun result => result.algorithm == a

end Minimize

end SwitchingLogic
