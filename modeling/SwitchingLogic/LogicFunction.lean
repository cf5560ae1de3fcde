import SwitchingLogic.State

/-!
# Boolean functions

What trees, terms, constraints and circuits have in common: a value in every state, and a set of
variables on which the value may depend.  Truth tables and Karnaugh maps are made from any of
them.
-/

namespace SwitchingLogic

/-- A representation of a Boolean function. -/
class LogicFunction (α : Type) where
  /-- The value of the function in a state. -/
  eval : α → State → Bool
  /-- The variables that the function mentions. -/
  vars : α → VarSet

end SwitchingLogic
