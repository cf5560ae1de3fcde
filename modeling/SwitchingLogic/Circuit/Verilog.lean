import SwitchingLogic.Circuit.Statement

/-!
# Verilog

A netlist as a structural Verilog module: one primitive instance per gate, one assignment per
constant and one for the result.
-/

namespace SwitchingLogic.Verilog

def signal : Signal → String
  | .input v => v.letter.toString
  | .wire n => s!"w{n}"
  | .result => "result"

def primitive : Connective → String
  | .and => "and"
  | .or => "or"

def names (signals : List Signal) : String := ", ".intercalate (signals.map signal)

/-- An instance of a primitive: its first signal is driven, the others are read. -/
def instantiate (primitive : String) (wire : Nat) (read : List Signal) : String :=
  s!"  {primitive} g{wire}({names (.wire wire :: read)});"

def statement : Statement → String
  | .constant w b => s!"  assign {signal (.wire w)} = 1'b{b.toNat};"
  | .not w a => instantiate "not" w [a]
  | .binary op w a b => instantiate (primitive op) w [a, b]
  | .result a => s!"  assign {signal .result} = {signal a};"

/-- A declaration of signals, left out if there are none. -/
def declare (keyword : String) (signals : List Signal) : List String :=
  if signals.isEmpty then [] else [s!"  {keyword} {names signals};"]

def lines (n : Netlist) (name : String) : List String :=
  let inputs := n.inputs.map Signal.input
  [s!"module {name}({names (inputs ++ [.result])});"] ++ declare "input" inputs ++
    declare "output" [.result] ++ declare "wire" (n.wires.map Signal.wire) ++ [""] ++
    n.statements.map statement ++ ["endmodule"]

def text (n : Netlist) (name : String) : String :=
  String.join ((lines n name).map (· ++ "\n"))

end SwitchingLogic.Verilog
