import SwitchingLogic.Satisfaction.Constraint
import SwitchingLogic.Satisfaction.Partial

/-!
# Satisfaction problems

A solution of a problem is a state in which an expression is true and all constraints hold.  Only
the variables that occur in the problem matter.
-/

namespace SwitchingLogic

structure Problem where
  expr : Expr
  constraints : List Constraint

namespace Problem

def vars (p : Problem) : List Variable :=
  (p.constraints.foldl (fun vs c => vs.union c.vars) p.expr.vars).toList

def isSolution (p : Problem) (s : State) : Bool :=
  p.expr.eval s && p.constraints.all fun c => c.eval s

/-- The joint verdict of the constraints, on top of a verdict that is not negative. -/
def constraintStatus (lookup : Variable → Option Bool) :
    Option Bool → List Constraint → Option Bool
  | verdict, [] => verdict
  | verdict, c :: rest =>
      match c.eval? lookup with
      | some false => some false
      | some true => constraintStatus lookup verdict rest
      | none => constraintStatus lookup none rest

/-- What the known values of variables say about the problem: they make it false, they solve it,
or neither. -/
def status (p : Problem) (lookup : Variable → Option Bool) : Option Bool :=
  match p.expr.eval? lookup with
  | some false => some false
  | verdict => constraintStatus lookup verdict p.constraints

end Problem

end SwitchingLogic
