import SwitchingLogic.Term

/-!
# Truth tables

The values of a function in all states of a list of variables.  Rows are numbered so that the
first variable is the most significant bit of the row index.  The rows where the function is true
are its minterms, the others its maxterms; they give the two canonical forms.
-/

namespace SwitchingLogic

/-- A column of values for an ordered list of variables. -/
structure TruthTable where
  vars : List Variable
  outputs : List Bool

structure TruthTable.Row where
  index : Nat
  assignment : Assignment
  output : Bool
  deriving DecidableEq, Repr

namespace TruthTable

def maxVariables : Nat := 10

def tabulate {α : Type} [LogicFunction α] (f : α) (vs : List Variable) : TruthTable :=
  ⟨vs, (List.range (1 <<< vs.length)).map fun row => LogicFunction.eval f (State.ofIndex row vs)⟩

def build {α : Type} [LogicFunction α] (f : α) (vs : List Variable) : Except Error TruthTable := do
  checkCapacity .truthTable vs.length maxVariables
  pure (tabulate f vs)

def size (t : TruthTable) : Nat := t.outputs.length

def state (t : TruthTable) (row : Nat) : State := State.ofIndex row t.vars

def rows (t : TruthTable) : List Row :=
  t.outputs.zipIdx.map fun (output, row) => ⟨row, (t.state row).assignment t.vars, output⟩

structure Columns where
  rows : List Row
  minterms : List Nat
  maxterms : List Nat
  deriving DecidableEq, Repr

namespace Columns

def empty : Columns := ⟨[], [], []⟩

/-- Put a row at the end, and its number at the end of the minterms or of the maxterms. -/
def push (c : Columns) (r : Row) : Columns :=
  if r.output then ⟨c.rows ++ [r], c.minterms ++ [r.index], c.maxterms⟩
  else ⟨c.rows ++ [r], c.minterms, c.maxterms ++ [r.index]⟩

/-- Go through all rows once and fill the lists. -/
def fill {α : Type} [LogicFunction α] (f : α) (vs : List Variable) : Columns :=
  (List.range (1 <<< vs.length)).foldl (fun c index =>
    let s := State.ofIndex index vs
    c.push ⟨index, s.assignment vs, LogicFunction.eval f s⟩) empty

end Columns

def rowsWith (t : TruthTable) (value : Bool) : List Nat :=
  (t.outputs.zipIdx.filter fun (output, _) => output == value).map (·.2)

def minterms (t : TruthTable) : List Nat := t.rowsWith true

def maxterms (t : TruthTable) : List Nat := t.rowsWith false

def isTautology (t : TruthTable) : Bool := t.outputs.all id

def isContradiction (t : TruthTable) : Bool := t.outputs.all not

/-- The bit of a row index that belongs to a position: the first one is the highest bit. -/
def rowBit (row position width : Nat) : Bool := row.testBit (width - 1 - position)

def rowTerm (row : Nat) (vs : List Variable) : Term :=
  vs.zipIdx.foldl (fun t (v, position) => t.set v (rowBit row position vs.length)) .free

def mintermTerm (t : TruthTable) (row : Nat) : Term := rowTerm row t.vars

/-- The literals of the clause that is false on one row only. -/
def maxtermTerm (t : TruthTable) (row : Nat) : Term := (t.mintermTerm row).negateAll

def canonicalSop (t : TruthTable) : Expr :=
  Expr.disj (t.minterms.map fun row => (t.mintermTerm row).toProduct)

def canonicalPos (t : TruthTable) : Expr :=
  Expr.conj (t.maxterms.map fun row => (t.maxtermTerm row).toSum)

end TruthTable

end SwitchingLogic
