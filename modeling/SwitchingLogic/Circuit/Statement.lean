import SwitchingLogic.Circuit.Netlist

/-!
# Statements of a hardware description

Every gate that is no input is described by one statement, in the order of gates: it names the
signal that it drives and the signals that it reads.  The two hardware description languages write
the same statements.
-/

namespace SwitchingLogic

/-- A named signal: an input, the wire that a gate drives, or the result. -/
inductive Signal where
  | input (v : Variable)
  | wire (gate : Nat)
  | result
  deriving DecidableEq, Repr

/-- What drives a wire or the result. -/
inductive Statement where
  | constant (wire : Nat) (value : Bool)
  | not (wire : Nat) (operand : Signal)
  | binary (op : Connective) (wire : Nat) (left right : Signal)
  | result (operand : Signal)
  deriving DecidableEq, Repr

def Statement.wire? : Statement → Option Nat
  | .constant w _ | .not w _ | .binary _ w _ _ => some w
  | .result _ => none

def Statement.target (s : Statement) : Signal :=
  match s.wire? with
  | some w => .wire w
  | none => .result

/-- The signal that a gate drives. -/
def Gate.signal (g : Gate) : Signal :=
  match g.node with
  | .source (.input v) => .input v
  | .output _ => .result
  | _ => .wire g.id

def Gate.input? (g : Gate) : Option Variable :=
  match g.node with
  | .source (.input v) => some v
  | _ => none

namespace Netlist

def signal (n : Netlist) (id : Nat) : Signal :=
  match n.gates[id]? with
  | some g => g.signal
  | none => .wire id

/-- The statement of a gate; inputs have none. -/
def statement? (n : Netlist) (g : Gate) : Option Statement :=
  match g.node with
  | .source (.input _) => none
  | .source (.constant b) => some (.constant g.id b)
  | .not a => some (.not g.id (n.signal a))
  | .binary op a b => some (.binary op g.id (n.signal a) (n.signal b))
  | .output a => some (.result (n.signal a))

def statements (n : Netlist) : List Statement := n.gates.toList.filterMap n.statement?

def wires (n : Netlist) : List Nat := n.statements.filterMap Statement.wire?

def inputs (n : Netlist) : List Variable := n.gates.toList.filterMap Gate.input?

end Netlist

end SwitchingLogic
