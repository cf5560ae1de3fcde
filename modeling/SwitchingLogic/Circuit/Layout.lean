import SwitchingLogic.Circuit.Netlist
import SwitchingLogic.Text.Keyword

/-!
# Layouts

The gates of a netlist are placed in the plane in columns.  Either every gate that is no source
has a column of its own, in the middle of the gates that it reads, or every level has one.
-/

namespace SwitchingLogic

/-- A place in the plane, or the distances between places. -/
structure Position where
  x : Float
  y : Float

inductive Layout where
  | buildOrder
  | leveled
  deriving DecidableEq, Repr

namespace Layout

def name : Layout → String
  | .buildOrder => "build-order"
  | .leveled => "leveled"

def all : List Layout := [.buildOrder, .leveled]

def ofName? (s : String) : Option Layout := all.find? fun l => l.name == s

def read (s : String) : Except Error Layout :=
  match Text.keyword s with
  | "build-order" | "build_order" => .ok .buildOrder
  | "leveled" | "levels" => .ok .leveled
  | _ => .error (.unknownMethod s)

/-- The mean height of gates, zero if there are none. -/
def meanHeight (placed : Array Position) (ids : List Nat) : Float :=
  let heights := ids.map fun id => (placed[id]?.map Position.y).getD 0
  heights.foldl (· + ·) 0 / Float.ofNat (max ids.length 1)

/-- Place a further gate in build order, after `placed` of which `sources` are sources. -/
def placeNext (spacing : Position) (placed : Array Position) (sources : Nat) (node : Node) :
    Position :=
  if node.isSource then ⟨0, Float.ofNat sources * spacing.y⟩
  else
    ⟨Float.ofNat (placed.size - sources + 1) * spacing.x, meanHeight placed node.operands⟩

/-- The sources in the first column, each other gate in a column of its own. -/
def inBuildOrder (n : Netlist) (spacing : Position) : Array Position :=
  (n.gates.foldl (fun (placed, sources) g =>
    (placed.push (placeNext spacing placed sources g.node),
      if g.node.isSource then sources + 1 else sources)) (#[], 0)).1

/-- One column per level, filled from the top in the order of gates. -/
def byLevel (n : Netlist) (spacing : Position) : Array Position :=
  (n.gates.foldl (fun (placed, filled) g =>
    (placed.push ⟨Float.ofNat g.level * spacing.x, Float.ofNat (filled.getD g.level 0) * spacing.y⟩,
      filled.modify g.level (· + 1)))
    (#[], Array.replicate n.gates.size 0)).1

def place (l : Layout) (n : Netlist) (spacing : Position) : Array Position :=
  match l with
  | .buildOrder => inBuildOrder n spacing
  | .leveled => byLevel n spacing

def greatest (xs : Array Float) : Float := xs.foldl (fun m x => if m < x then x else m) 0

/-- The size of the plane: one spacing beyond the outermost gates. -/
def bounds (placed : Array Position) (spacing : Position) : Position :=
  ⟨greatest (placed.map Position.x) + spacing.x, greatest (placed.map Position.y) + spacing.y⟩

end Layout

end SwitchingLogic
