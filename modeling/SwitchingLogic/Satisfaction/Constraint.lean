import SwitchingLogic.LogicFunction

/-!
# Constraints

A constraint restricts the values of listed variables.  The last three kinds count the places of
the list at which a true variable stands, so a variable listed twice counts twice.
-/

namespace SwitchingLogic

inductive Constraint where
  /-- Each variable has the value. -/
  | equals (vs : List Variable) (value : Bool)
  /-- No variable has the value. -/
  | notEquals (vs : List Variable) (value : Bool)
  /-- Some place holds a true variable. -/
  | atLeastOne (vs : List Variable)
  /-- Not more than one place holds a true variable. -/
  | atMostOne (vs : List Variable)
  /-- Exactly one place holds a true variable. -/
  | exactlyOne (vs : List Variable)
  deriving DecidableEq

namespace Constraint

def listed : Constraint → List Variable
  | .equals vs _ | .notEquals vs _ | .atLeastOne vs | .atMostOne vs | .exactlyOne vs => vs

/-- All values are known and equal to `value`; false as soon as one differs. -/
def allEqual? (values : List (Option Bool)) (value : Bool) : Option Bool :=
  if values.contains (some !value) then some false
  else if values.all Option.isSome then some true
  else none

/-- The value of the constraint, given the known values of variables; `none` if it is open. -/
def eval? (lookup : Variable → Option Bool) (c : Constraint) : Option Bool :=
  let values := c.listed.map lookup
  let trues := values.count (some true)
  let unknown := values.count none
  match c with
  | .equals _ value => allEqual? values value
  | .notEquals _ value => allEqual? values !value
  | .atLeastOne _ =>
      if 0 < trues then some true else if unknown = 0 then some false else none
  | .atMostOne _ =>
      if 1 < trues then some false else if unknown = 0 then some true else none
  | .exactlyOne _ =>
      if 1 < trues then some false else if unknown = 0 then some (trues == 1) else none

def eval (c : Constraint) (s : State) : Bool :=
  (c.eval? fun v => some (s.isActive v)).getD false

def vars (c : Constraint) : VarSet := VarSet.ofList c.listed

instance : LogicFunction Constraint := ⟨eval, vars⟩

end Constraint

end SwitchingLogic
