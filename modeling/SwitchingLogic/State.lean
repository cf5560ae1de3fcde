import SwitchingLogic.VarSet

/-!
# States

A state gives every variable a value.  It is the set of the variables that are true; all others
are false.  Over a list of variables the states are numbered like the rows of a truth table: the
first variable is the most significant bit.
-/

namespace SwitchingLogic

/-- An explicit list of values: one entry for each variable concerned, in the order of
variables. -/
abbrev Assignment := List (Variable × Bool)

/-- A value for every variable, given by the set of the true ones. -/
structure State where
  active : VarSet
  deriving DecidableEq

namespace State

def allFalse : State := ⟨VarSet.empty⟩

def isActive (s : State) (v : Variable) : Bool := s.active.contains v

def activate (s : State) (v : Variable) : State := ⟨s.active.insert v⟩

def disable (s : State) (v : Variable) : State := ⟨s.active.erase v⟩

def set (s : State) (v : Variable) (value : Bool) : State :=
  if value then s.activate v else s.disable v

def flip (s : State) (v : Variable) : State := s.set v (!s.isActive v)

def ofList (vs : List Variable) : State := ⟨VarSet.ofList vs⟩

/-- The state of a row: the variable at the head of the list takes the highest bit of the row
index.  A variable listed more than once is true when any of its bits is set. -/
def ofIndex (index : Nat) : List Variable → State
  | [] => allFalse
  | v :: rest =>
      let state := ofIndex index rest
      if index.testBit rest.length then state.activate v else state

/-- The row of a state over a list of variables.  Rows are numbered by words of 64 bits, so of a
longer list only the last 64 variables count. -/
def toIndex (s : State) (vs : List Variable) : Nat :=
  vs.foldl (fun index v => 2 * index + (s.isActive v).toNat) 0 % UInt64.size

def ofAssignment (values : Assignment) : State :=
  ofList ((values.filter (·.2)).map (·.1))

/-- The values of the listed variables, each variable once. -/
def assignment (s : State) (vs : List Variable) : Assignment :=
  (VarSet.ofList vs).toList.map fun v => (v, s.isActive v)

/-- The true variables in braces. -/
def text (s : State) : String := s.active.text

end State

end SwitchingLogic
