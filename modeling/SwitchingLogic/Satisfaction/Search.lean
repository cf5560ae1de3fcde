import SwitchingLogic.Satisfaction.Problem

/-!
# Complete searches

Two searches go through all assignments: one fixes the variables in turn, true before false, and
leaves a branch as soon as the problem is false there; the other evaluates the rows of the truth
table from first to last.
-/

namespace SwitchingLogic

structure Search where
  /-- The solutions in the order in which they were found. -/
  solutions : List State
  /-- The assignments that were looked at. -/
  steps : Nat
  /-- The search is over. -/
  stopped : Bool

namespace Search

/-- One assignment was looked at and led nowhere. -/
def deadEnd : Search := ⟨[], 1, false⟩

/-- The first search, gone on with by the second one unless it is over. -/
def andThen (a : Search) (b : Unit → Search) : Search :=
  if a.stopped then a
  else
    let b := b ()
    ⟨a.solutions ++ b.solutions, a.steps + b.steps, b.stopped⟩

def charge (a : Search) : Search := { a with steps := a.steps + 1 }

end Search

namespace Problem

/-- Search below a partial assignment, which has fixed all variables but the listed ones.  Unless
all solutions are wanted, the first one ends the search. -/
def branch (p : Problem) (findAll : Bool) : List Variable → Term → Search
  | [], t =>
      if p.status t.lookup = some true then ⟨[⟨t.positive⟩], 1, !findAll⟩ else .deadEnd
  | v :: rest, t =>
      if p.status t.lookup = some false then .deadEnd
      else
        (((branch p findAll rest (t.set v true)).andThen fun _ =>
          branch p findAll rest (t.set v false))).charge

def branchSearch (p : Problem) (findAll : Bool) : Search :=
  p.branch findAll p.vars .free

def rowSearch (p : Problem) (findAll : Bool) : Search :=
  let vs := p.vars
  let states := (List.range (1 <<< vs.length)).map fun row => State.ofIndex row vs
  if findAll then ⟨states.filter p.isSolution, states.length, false⟩
  else
    match states.findIdx? p.isSolution with
    | some row => ⟨[State.ofIndex row vs], row + 1, true⟩
    | none => ⟨[], states.length, false⟩

end Problem

end SwitchingLogic
