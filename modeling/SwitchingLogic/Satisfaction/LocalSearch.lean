import SwitchingLogic.Random.Chooser
import SwitchingLogic.Satisfaction.Problem

/-!
# Local search

The search starts from a random state and repairs it.  The conjuncts of the expression and the
constraints are the checks; as long as one fails, a variable of some failing check is flipped: now
and then any of them, otherwise the one that leaves the fewest checks failing.  The search gives up
at a failing check without variables, and when its flips are used up.
-/

namespace SwitchingLogic

/-- A condition that a solution has to meet: a conjunct or a constraint. -/
inductive Check where
  | conjunct (e : Expr)
  | constraint (c : Constraint)

namespace Check

def eval : Check → State → Bool
  | .conjunct e, s => e.eval s
  | .constraint c, s => c.eval s

def vars : Check → List Variable
  | .conjunct e => e.vars.toList
  | .constraint c => c.vars.toList

end Check

namespace Problem

def checks (p : Problem) : List Check :=
  (p.expr.operands .and).map .conjunct ++ p.constraints.map .constraint

def heldAfter (checks : List Check) (s : State) (v : Variable) : Nat :=
  let flipped := s.flip v
  checks.countP fun c => c.eval flipped

/-- The better of a choice with its count and another variable: the first one of equals stays. -/
def betterFlip (checks : List Check) (s : State) (best : Variable × Nat) (v : Variable) :
    Variable × Nat :=
  let held := heldAfter checks s v
  if held > best.2 then (v, held) else best

/-- The variable, of a first one and more, after whose flip most checks hold. -/
def bestFlip (checks : List Check) (s : State) (v : Variable) (rest : List Variable) : Variable :=
  ((v :: rest).foldl (betterFlip checks s) (v, 0)).1

/-- The variable to flip in a failing check with these variables. -/
def chooseFlip {σ : Type} (source : Random.Chooser σ) (noise : Float) (checks : List Check)
    (s : State) (v : Variable) (rest : List Variable) (r : σ) : Variable × σ :=
  let (random, r) := source.coin noise r
  if random then
    let (i, r) := source.pick rest.length r
    ((v :: rest)[i], r)
  else (bestFlip checks s v rest, r)

/-- Repair a state by at most `flips` flips.  The result is the state found, if any, and the number
of flips made on top of `made`. -/
def repair {σ : Type} (source : Random.Chooser σ) (noise : Float) (p : Problem)
    (checks : List Check) : Nat → State → Nat → σ → Option State × Nat
  | 0, s, made, _ => (if p.isSolution s then some s else none, made)
  | flips + 1, s, made, r =>
      match checks.filter fun c => !c.eval s with
      | [] => (some s, made)
      | c :: failing =>
          let (i, r) := source.pick failing.length r
          match ((c :: failing)[i]).vars with
          | [] => (none, made)
          | v :: rest =>
              let (flip, r) := chooseFlip source noise checks s v rest r
              repair source noise p checks flips (s.flip flip) (made + 1) r

def localSearch {σ : Type} (source : Random.Chooser σ) (p : Problem) (maxFlips : Nat)
    (noise : Float) (r : σ) : Option State × Nat :=
  let (active, r) := source.sample 0.5 p.vars r
  p.repair source noise p.checks maxFlips (State.ofList active) 0 r

end Problem

end SwitchingLogic
