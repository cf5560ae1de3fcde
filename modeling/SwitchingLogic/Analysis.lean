import SwitchingLogic.Circuit.Basic
import SwitchingLogic.Conversion
import SwitchingLogic.Karnaugh.Map
import SwitchingLogic.Satisfaction.Solve
import SwitchingLogic.Simplify

/-!
# Analysis

All that the library can find out about a formula, in stages.  A text that cannot be read has no
analysis; the failure of a stage is kept in the place of its result and does not touch the other
stages.  Run one after the other, the stages collect their failures in one list.
-/

namespace SwitchingLogic.Analysis

inductive Stage where
  | truthTable
  | simplification
  | minimization
  | karnaughMap
  | satisfiability
  | sumOfProducts
  | productOfSums
  | circuit
  deriving DecidableEq, Repr

def Stage.title : Stage → String
  | .truthTable => "truth table"
  | .simplification => "simplification"
  | .minimization => "minimization"
  | .karnaughMap => "karnaugh map"
  | .satisfiability => "satisfiability"
  | .sumOfProducts => "sum of products"
  | .productOfSums => "product of sums"
  | .circuit => "circuit"

/-- The stages to go through; both conversions stand or fall together. -/
structure Selection where
  truthTable : Bool
  simplification : Bool
  minimization : Bool
  karnaughMap : Bool
  satisfiability : Bool
  conversion : Bool
  circuit : Bool
  deriving DecidableEq

def Selection.all : Selection := ⟨true, true, true, true, true, true, true⟩

structure Config where
  stages : Selection
  simplification : Simplify.Method
  /-- The names of the algorithms to minimize with. -/
  minimization : List String
  /-- Make the product of sums of the Karnaugh map. -/
  includePos : Bool
  satisfiability : Satisfaction.Options
  circuit : Circuit.Options

/-- What became of a stage. -/
inductive Outcome (α : Type) where
  | skipped
  | failed (e : Error)
  | found (result : α)

namespace Outcome

def of {α : Type} (selected : Bool) (run : Unit → Except Error α) : Outcome α :=
  if selected then
    match run () with
    | .ok result => .found result
    | .error e => .failed e
  else .skipped

def result? {α : Type} : Outcome α → Option α
  | .found result => some result
  | _ => none

def error? {α : Type} : Outcome α → Option Error
  | .failed e => some e
  | _ => none

end Outcome

end Analysis

/-- The outcomes of all stages for one formula. -/
structure Analysis where
  formula : Formula
  truthTable : Analysis.Outcome TruthTable
  simplification : Analysis.Outcome Simplify.Result
  minimization : Analysis.Outcome Minimize.Report
  karnaughMap : Analysis.Outcome Karnaugh.Map
  satisfiability : Analysis.Outcome Satisfaction.Result
  sumOfProducts : Analysis.Outcome Conversion.Result
  productOfSums : Analysis.Outcome Conversion.Result
  circuit : Analysis.Outcome Circuit

namespace Analysis

def Config.default : Config :=
  ⟨.all, .auto, Minimize.allNames, true, .default, .default⟩

def ofFormula (f : Formula) (c : Config) : Analysis where
  formula := f
  truthTable := .of c.stages.truthTable fun _ => TruthTable.build f.expr f.vars
  simplification := .of c.stages.simplification fun _ => Simplify.run f c.simplification
  minimization := .of c.stages.minimization fun _ => Minimize.report f c.minimization
  karnaughMap := .of c.stages.karnaughMap fun _ => Karnaugh.Map.build f f.vars c.includePos
  satisfiability := .of c.stages.satisfiability fun _ => Satisfaction.solve f c.satisfiability
  sumOfProducts := .of c.stages.conversion fun _ => Conversion.convert f .sumOfProducts
  productOfSums := .of c.stages.conversion fun _ => Conversion.convert f .productOfSums
  circuit := .of c.stages.circuit fun _ => Circuit.build f c.circuit

def analyze (source : String) (c : Config) : Except Error Analysis := do
  pure (ofFormula (← Formula.parse source) c)

def error? (a : Analysis) : Stage → Option Error
  | .truthTable => a.truthTable.error?
  | .simplification => a.simplification.error?
  | .minimization => a.minimization.error?
  | .karnaughMap => a.karnaughMap.error?
  | .satisfiability => a.satisfiability.error?
  | .sumOfProducts => a.sumOfProducts.error?
  | .productOfSums => a.productOfSums.error?
  | .circuit => a.circuit.error?

def Stage.all : List Stage :=
  [.truthTable, .simplification, .minimization, .karnaughMap, .satisfiability, .sumOfProducts,
    .productOfSums, .circuit]

def failures (a : Analysis) : List (Stage × Error) :=
  Stage.all.filterMap fun s => (a.error? s).map fun e => (s, e)

/-- The results of the stages as they are recorded, with one list of all failures. -/
structure Record where
  formula : Formula
  truthTable : Option TruthTable
  simplification : Option Simplify.Result
  minimization : Option Minimize.Report
  karnaughMap : Option Karnaugh.Map
  satisfiability : Option Satisfaction.Result
  sumOfProducts : Option Conversion.Result
  productOfSums : Option Conversion.Result
  circuit : Option Circuit
  failures : List (Stage × Error)

def record (a : Analysis) : Record :=
  ⟨a.formula, a.truthTable.result?, a.simplification.result?, a.minimization.result?,
    a.karnaughMap.result?, a.satisfiability.result?, a.sumOfProducts.result?,
    a.productOfSums.result?, a.circuit.result?, a.failures⟩

/-- Run a stage if it is selected.  The cause of a failure goes to the end of the list that the
stages share. -/
def Stage.run {α : Type} (stage : Stage) (selected : Bool) (act : Unit → Except Error α) :
    StateM (List (Stage × Error)) (Option α) := do
  if selected then
    match act () with
    | .ok result => pure (some result)
    | .error e =>
        modify fun failures => failures ++ [(stage, e)]
        pure none
  else pure none

/-- Run the selected stages one after the other, and collect their failures on the way. -/
def runStages (f : Formula) (c : Config) : StateM (List (Stage × Error)) Record := do
  let truthTable ← Stage.run .truthTable c.stages.truthTable fun _ =>
    TruthTable.build f.expr f.vars
  let simplification ← Stage.run .simplification c.stages.simplification fun _ =>
    Simplify.run f c.simplification
  let minimization ← Stage.run .minimization c.stages.minimization fun _ =>
    Minimize.report f c.minimization
  let karnaughMap ← Stage.run .karnaughMap c.stages.karnaughMap fun _ =>
    Karnaugh.Map.build f f.vars c.includePos
  let satisfiability ← Stage.run .satisfiability c.stages.satisfiability fun _ =>
    Satisfaction.solve f c.satisfiability
  let sumOfProducts ← Stage.run .sumOfProducts c.stages.conversion fun _ =>
    Conversion.convert f .sumOfProducts
  let productOfSums ← Stage.run .productOfSums c.stages.conversion fun _ =>
    Conversion.convert f .productOfSums
  let circuit ← Stage.run .circuit c.stages.circuit fun _ => Circuit.build f c.circuit
  return ⟨f, truthTable, simplification, minimization, karnaughMap, satisfiability, sumOfProducts,
    productOfSums, circuit, ← get⟩

def collect (source : String) (c : Config) : Except Error Record := do
  pure ((runStages (← Formula.parse source) c).run []).1

end Analysis

end SwitchingLogic
