import SwitchingLogic.Expr.Basic

/-!
# Netlists

A netlist is a list of gates, each of which reads gates in front of it.  The netlist of an
expression begins with one input per variable; every node of the tree then adds a gate after those
of its operands, where equal sources are shared; a single output gate ends the list.
-/

namespace SwitchingLogic

/-- Where a value enters a netlist. -/
inductive Source where
  | input (v : Variable)
  | constant (value : Bool)
  deriving DecidableEq, Repr

inductive Node where
  | source (s : Source)
  | not (operand : Nat)
  | binary (op : Connective) (left right : Nat)
  | output (operand : Nat)
  deriving DecidableEq, Repr

namespace Node

def operands : Node → List Nat
  | .source _ => []
  | .not a => [a]
  | .binary _ a b => [a, b]
  | .output a => [a]

def kind : Node → String
  | .source (.input _) => "INPUT"
  | .source (.constant _) => "CONSTANT"
  | .not _ => "NOT"
  | .binary .and _ _ => "AND"
  | .binary .or _ _ => "OR"
  | .output _ => "OUTPUT"

/-- The inscription of a gate: the letter of an input, the value of a constant, and else what the
gate does. -/
def label : Node → String
  | .source (.input v) => v.letter.toString
  | .source (.constant b) => toString b.toNat
  | .output _ => "result"
  | node => node.kind

def isSource : Node → Bool
  | .source _ => true
  | _ => false

def isInput : Node → Bool
  | .source (.input _) => true
  | _ => false

def isNot : Node → Bool
  | .not _ => true
  | _ => false

def isBinary (op : Connective) : Node → Bool
  | .binary op' _ _ => op' == op
  | _ => false

def isOutput : Node → Bool
  | .output _ => true
  | _ => false

def isLogic : Node → Bool
  | .not _ | .binary _ _ _ => true
  | _ => false

/-- The value of the gate in a state, from the values of the gates in front of it. -/
def eval (s : State) (values : Array Bool) : Node → Bool
  | .source (.input v) => s.isActive v
  | .source (.constant b) => b
  | .not a => !values.getD a false
  | .binary op a b => op.eval (values.getD a false) (values.getD b false)
  | .output a => values.getD a false

end Node

structure Gate where
  id : Nat
  node : Node
  level : Nat
  deriving DecidableEq, Repr

structure Connection where
  source : Nat
  target : Nat
  deriving DecidableEq, Repr

def Gate.connections (g : Gate) : List Connection :=
  g.node.operands.map fun a => ⟨a, g.id⟩

/-- A list of gates in an order in which they can be computed. -/
structure Netlist where
  gates : Array Gate

namespace Netlist

/-- A netlist under construction, with the gates of its sources. -/
structure Draft where
  gates : Array Gate
  sources : List (Source × Nat)

namespace Draft

def empty : Draft := ⟨#[], []⟩

def levelOf (d : Draft) (id : Nat) : Nat := (d.gates[id]?.map Gate.level).getD 0

/-- The level of a further gate: sources are on level zero, and any other gate is one above the
highest gate that it reads. -/
def nextLevel (d : Draft) (node : Node) : Nat :=
  if node.isSource then 0 else (node.operands.map d.levelOf).foldl max 0 + 1

/-- Add a gate.  Its number is the number of gates before. -/
def add (d : Draft) (node : Node) : Nat × Draft :=
  (d.gates.size, ⟨d.gates.push ⟨d.gates.size, node, d.nextLevel node⟩, d.sources⟩)

def addSource (d : Draft) (s : Source) : Nat × Draft :=
  match d.sources.lookup s with
  | some id => (id, d)
  | none =>
      let (id, next) := d.add (.source s)
      (id, ⟨next.gates, (s, id) :: next.sources⟩)

/-- Add the gates of a tree, operands first. -/
def addExpr (d : Draft) : Expr → Nat × Draft
  | .var v => d.addSource (.input v)
  | .const b => d.addSource (.constant b)
  | .not e =>
      let (a, d) := d.addExpr e
      d.add (.not a)
  | .binary op l r =>
      let (a, d) := d.addExpr l
      let (b, d) := d.addExpr r
      d.add (.binary op a b)

def addInputs (d : Draft) (vs : List Variable) : Draft :=
  vs.foldl (fun d v => (d.addSource (.input v)).2) d

end Draft

def ofExpr (e : Expr) : Netlist :=
  let (root, d) := (Draft.empty.addInputs e.vars.toList).addExpr e
  ⟨(d.add (.output root)).2.gates⟩

def simulate (n : Netlist) (s : State) : Array Bool :=
  n.gates.foldl (fun values g => values.push (g.node.eval s values)) #[]

def eval (n : Netlist) (s : State) : Bool := (n.simulate s).back?.getD false

def connections (n : Netlist) : List Connection := n.gates.toList.flatMap Gate.connections

def output? (n : Netlist) : Option Gate := n.gates.find? fun g => g.node.isOutput

def count (n : Netlist) (sort : Node → Bool) : Nat := n.gates.countP fun g => sort g.node

/-- The highest level of a gate that computes something. -/
def depth (n : Netlist) : Nat :=
  n.gates.foldl (fun m g => if g.node.isLogic then max m g.level else m) 0

end Netlist

inductive Netlist.Note where
  | inverters (count : Nat)
  | depth (levels : Nat)
  | size (count : Nat)
  deriving DecidableEq, Repr

namespace Netlist

def Note.message : Note → String
  | .inverters n => s!"{n} NOT gates: De Morgan's laws may reduce the number of inverters"
  | .depth n => s!"Depth {n}: a two-level form would shorten the propagation delay"
  | .size n => s!"{n} logic gates: minimizing the expression may reduce the gate count"

/-- The remarks about a netlist: more than two inverters, more than four levels, more than ten
gates. -/
def notes (n : Netlist) : List Note :=
  (if n.count Node.isNot > 2 then [.inverters (n.count Node.isNot)] else []) ++
    (if n.depth > 4 then [.depth n.depth] else []) ++
    (if n.count Node.isLogic > 10 then [.size (n.count Node.isLogic)] else [])

end Netlist

end SwitchingLogic
