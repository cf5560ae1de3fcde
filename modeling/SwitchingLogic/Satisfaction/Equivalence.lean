import SwitchingLogic.Formula.Basic
import SwitchingLogic.TruthTable

/-!
# Equivalence

Two formulas are compared in all states of the variables that occur in either of them.
-/

namespace SwitchingLogic.Equivalence

structure Counterexample where
  state : State
  left : Bool
  right : Bool

structure Result where
  equivalent : Bool
  vars : List Variable
  /-- The number of states that were compared. -/
  checked : Nat
  counterexamples : List Counterexample

def counterexample? (f g : Formula) (vs : List Variable) (row : Nat) : Option Counterexample :=
  let s := State.ofIndex row vs
  let left := f.expr.eval s
  let right := g.expr.eval s
  if left = right then none else some ⟨s, left, right⟩

def compare (f g : Formula) : Except Error Result := do
  let vs := (f.expr.vars.union g.expr.vars).toList
  checkCapacity .equivalenceCheck vs.length TruthTable.maxVariables
  let rows := 1 <<< vs.length
  let found := (List.range rows).filterMap (counterexample? f g vs)
  pure ⟨found.isEmpty, vs, rows, found⟩

end SwitchingLogic.Equivalence
