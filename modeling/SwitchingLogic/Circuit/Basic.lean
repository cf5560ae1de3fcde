import SwitchingLogic.Circuit.Layout
import SwitchingLogic.Circuit.Verilog
import SwitchingLogic.Circuit.Vhdl
import SwitchingLogic.Formula.Basic

/-!
# Circuits

A circuit is the netlist of a formula, placed in the plane and described in two hardware
description languages under a module name that both accept.
-/

namespace SwitchingLogic

structure Circuit.Options where
  layout : Layout
  spacing : Position
  moduleName : String

/-- The netlist of a formula with its layout and its module name. -/
structure Circuit where
  expr : Expr
  vars : List Variable
  netlist : Netlist
  positions : Array Position
  bounds : Position
  moduleName : String

namespace Circuit

def Options.default : Options := ⟨.buildOrder, ⟨120, 80⟩, "logic_circuit"⟩

def underscoresSeparate : List Char → Bool
  | [] => true
  | c :: rest =>
      (c != '_' || (rest.head?.any fun d => d != '_')) && underscoresSeparate rest

/-- A name that both languages accept: letters, digits and single underscores, of which the first
is a letter and the last is no underscore. -/
def isModuleName (name : List Char) : Bool :=
  name.head?.any Char.isAlpha && name.all (fun c => c.isAlphanum || c == '_') &&
    underscoresSeparate name

def checkModuleName (name : String) : Except Error Unit :=
  if isModuleName name.toList then pure () else throw (.invalidName name)

def build (f : Formula) (o : Options) : Except Error Circuit := do
  checkModuleName o.moduleName
  let netlist := Netlist.ofExpr f.expr
  let positions := o.layout.place netlist o.spacing
  pure ⟨f.expr, f.vars, netlist, positions, Layout.bounds positions o.spacing, o.moduleName⟩

def simulate (c : Circuit) (s : State) : Array Bool := c.netlist.simulate s

def verilog (c : Circuit) : String := Verilog.text c.netlist c.moduleName

def vhdl (c : Circuit) : String := Vhdl.text c.netlist c.moduleName

instance : LogicFunction Circuit :=
  ⟨fun c => c.netlist.eval, fun c => VarSet.ofList c.vars⟩

end Circuit

end SwitchingLogic
