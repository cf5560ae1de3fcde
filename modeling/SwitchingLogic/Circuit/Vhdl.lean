import SwitchingLogic.Circuit.Statement

/-!
# VHDL

A netlist as a VHDL entity with a dataflow architecture: one signal assignment per statement.
VHDL does not tell upper from lower case, so the inputs named by lower-case letters get longer
names.
-/

namespace SwitchingLogic.Vhdl

def signal : Signal → String
  | .input v => if v.letter.isLower then s!"{v.letter}_lc" else v.letter.toString
  | .wire n => s!"w{n}"
  | .result => "result"

def operator : Connective → String
  | .and => "and"
  | .or => "or"

def value : Statement → String
  | .constant _ b => s!"'{b.toNat}'"
  | .not _ a => s!"not {signal a}"
  | .binary op _ a b => s!"{signal a} {operator op} {signal b}"
  | .result a => signal a

def statement (s : Statement) : String := s!"  {signal s.target} <= {value s};"

def lines (n : Netlist) (name : String) : List String :=
  ["library ieee;", "use ieee.std_logic_1164.all;", "", s!"entity {name} is", "  port ("] ++
    n.inputs.map (fun v => s!"    {signal (.input v)} : in std_logic;") ++
    [s!"    {signal .result} : out std_logic", "  );", s!"end entity {name};", "",
      s!"architecture dataflow of {name} is"] ++
    n.wires.map (fun w => s!"  signal {signal (.wire w)} : std_logic;") ++
    ["begin"] ++ n.statements.map statement ++ ["end architecture dataflow;"]

def text (n : Netlist) (name : String) : String :=
  String.join ((lines n name).map (· ++ "\n"))

end SwitchingLogic.Vhdl
