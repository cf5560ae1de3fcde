import SwitchingLogic.Law.DeMorgan
import SwitchingLogic.Law.Pass
import SwitchingLogic.Minimize

/-!
# Simplification

Three methods make an expression shorter: the laws alone, the laws with negations pushed inwards
in between, and the minimal sum of products.  By default all three are tried and the shortest
result is taken.
-/

namespace SwitchingLogic.Simplify

inductive Method where
  | auto
  | basic
  | deMorgan
  | quineMcCluskey
  deriving DecidableEq, Repr

namespace Method

def name : Method → String
  | .auto => "auto"
  | .basic => "basic"
  | .deMorgan => "demorgan"
  | .quineMcCluskey => "quine-mccluskey"

def all : List Method := [.auto, .basic, .deMorgan, .quineMcCluskey]

def ofName? (s : String) : Option Method := all.find? fun m => m.name == s

def read (s : String) : Except Error Method :=
  match Text.keyword s with
  | "auto" => .ok .auto
  | "basic" => .ok .basic
  | "demorgan" | "de-morgan" => .ok .deMorgan
  | "quine-mccluskey" | "qm" => .ok .quineMcCluskey
  | _ => .error (.unknownMethod s)

end Method

structure Derivation where
  expr : Expr
  steps : List Law.Step

/-- What a method finds, or why it was left out. -/
structure Candidate where
  method : Method
  outcome : Except Error Derivation

/-- The candidate that was chosen, beside all candidates. -/
structure Result where
  given : Expr
  simplified : Expr
  method : Method
  steps : List Law.Step
  candidates : List Candidate

def byLaws (e : Expr) : Derivation :=
  let (expr, steps) := Law.apply e
  ⟨expr, steps⟩

/-- Push the negations of a simplified expression inwards and apply the laws again. -/
def byDeMorgan (start : Derivation) : Derivation :=
  let (pushed, pushSteps) := Law.pushNegations start.expr
  let (expr, steps) := Law.apply pushed
  ⟨expr, start.steps ++ pushSteps ++ steps⟩

def quineMcCluskey (f : Formula) : Except Error Expr := do
  let t ← TruthTable.build f.expr f.vars
  if t.isTautology then pure (.const true)
  else
    let (cubes, _) := Algorithm.quineMcCluskey.cover t.minterms t.vars.length
    pure (Implicant.sumOfProducts (Implicant.sortForDisplay cubes t.vars) t.vars)

def twoLevelCandidate (f : Formula) : Candidate :=
  ⟨.quineMcCluskey, (quineMcCluskey f).map fun e => ⟨e, []⟩⟩

def candidates (f : Formula) : Method → Except Error (List Candidate)
  | .auto =>
      let basic := byLaws f.expr
      pure [⟨.basic, .ok basic⟩, ⟨.deMorgan, .ok (byDeMorgan basic)⟩, twoLevelCandidate f]
  | .basic => pure [⟨.basic, .ok (byLaws f.expr)⟩]
  | .deMorgan => pure [⟨.deMorgan, .ok (byDeMorgan (byLaws f.expr))⟩]
  | .quineMcCluskey => do
      checkCapacity .twoLevelSimplification f.vars.length TruthTable.maxVariables
      pure [twoLevelCandidate f]

/-- The better of a choice made so far and a new candidate: the new one has to be shorter. -/
def better (best? : Option (Method × Derivation)) (c : Candidate) :
    Option (Method × Derivation) :=
  match c.outcome, best? with
  | .error _, _ => best?
  | .ok d, none => some (c.method, d)
  | .ok d, some best =>
      if d.expr.textLength < best.2.expr.textLength then some (c.method, d) else some best

def run (f : Formula) (method : Method) : Except Error Result := do
  let cs ← candidates f method
  let (method, d) := (cs.foldl better none).getD (method, ⟨f.expr, []⟩)
  pure ⟨f.expr, d.expr, method, d.steps, cs⟩

end SwitchingLogic.Simplify
