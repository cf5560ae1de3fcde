import SwitchingLogic.Circuit.Vhdl
import SwitchingLogic.Proofs.Circuit.Reading

/-!
# Reading VHDL

The text of a VHDL entity says what its netlist says: the ports and the internal signals are its
signals, and each concurrent assignment is a gate.  Names are read without regard to case, and
still every name gives its signal back.
-/

namespace SwitchingLogic.Vhdl

open Description

def declared : Role → List String → List String
  | .input, [x, ":", "in", "std_logic", ";"] => [x]
  | .output, [x, ":", "out", "std_logic"] => [x]
  | .wire, ["signal", x, ":", "std_logic", ";"] => [x]
  | _, _ => []

/-- The signal of a name.  A single letter is an upper-case variable in either case, and a letter
with the suffix is a lower-case one. -/
def signal? (name : String) : Option Signal :=
  let letters := name.toLower.toList
  match internal? letters, letters with
  | some s, _ => some s
  | none, [c] => (Variable.ofLetter? c.toUpper).map .input
  | none, [c, '_', 'l', 'c'] => (Variable.ofLetter? c).map .input
  | _, _ => none

def constant? : String → Option String
  | "'0'" => some "0"
  | "'1'" => some "1"
  | _ => none

def driver? : List String → Option Driver
  | [t, "<", "=", v, ";"] => assignment? signal? constant? t v
  | [t, "<", "=", "not", a, ";"] => gate? signal? "NOT" t [a]
  | [t, "<", "=", a, "and", b, ";"] => gate? signal? "AND" t [a, b]
  | [t, "<", "=", a, "or", b, ";"] => gate? signal? "OR" t [a, b]
  | _ => none

def reader : Reader :=
  ⟨["begin"], ["end", "architecture", "dataflow", ";"], declared, signal?, driver?⟩

theorem signal?_signal (s : Signal) : signal? (signal s) = some s := by
  cases s with
  | input v =>
      obtain ⟨index⟩ := v
      revert index
      decide +kernel
  | wire n =>
      have name : (signal (.wire n)).toLower.toList = 'w' :: (toString n).toList := by
        have whole : (signal (.wire n)).toList = 'w' :: (toString n).toList :=
          String.toList_append
        change (String.map Char.toLower _).toList = _
        rw [String.toList_map, whole, List.map_cons, map_toLower_toString]
        rfl
      rw [signal?, name, internal?_wire]
  | result => decide +kernel

theorem isName_signal (s : Signal) : IsName (signal s) := by
  cases s with
  | input v =>
      obtain ⟨index⟩ := v
      revert index
      decide +kernel
  | wire n => exact (by decide : IsName "w").append (isName_toString n)
  | result => decide

def inputWords (v : Variable) : List String := [signal (.input v), ":", "in", "std_logic", ";"]

def wireWords (w : Nat) : List String := ["signal", signal (.wire w), ":", "std_logic", ";"]

def valueWords : Statement → List String
  | .constant _ b => ["'" ++ toString b.toNat ++ "'"]
  | .not _ a => ["not", signal a]
  | .binary op _ a b => [signal a, operator op, signal b]
  | .result a => [signal a]

def statementWords (s : Statement) : List String :=
  [signal s.target] ++ ["<", "="] ++ valueWords s ++ [";"]

def openingWords (name : String) : List (List String) :=
  [["library", "ieee", ";"], ["use", "ieee", ".", "std_logic_1164", ".", "all", ";"], [],
    ["entity", name, "is"], ["port", "("]]

def middleWords (name : String) : List (List String) :=
  [["result", ":", "out", "std_logic"], [")", ";"], ["end", "entity", name, ";"], [],
    ["architecture", "dataflow", "of", name, "is"]]

def headWords (n : Netlist) (name : String) : List (List String) :=
  openingWords name ++ n.inputs.map inputWords ++ middleWords name ++ n.wires.map wireWords

theorem spells_value (s : Statement) : Spells (value s) (valueWords s) := by
  cases s with
  | constant _ b =>
      cases b with
      | false => exact (by decide : Spells "'0'" ["'0'"])
      | true => exact (by decide : Spells "'1'" ["'1'"])
  | not _ a => exact (by decide : Opens "not " ["not"]).before (isName_signal a).spells
  | binary op _ a b =>
      have blank : Separates " " [] := by decide
      have operator : Spells (operator op) [operator op] := by cases op <;> decide
      exact blank.between (blank.between (isName_signal a).spells operator) (isName_signal b).spells
  | result a => exact (isName_signal a).spells

theorem spells_statement (s : Statement) : Spells (statement s) (statementWords s) := by
  have target := (by decide : Opens "  " []).before (isName_signal s.target).spells
  have assignment := (by decide : Separates " <= " ["<", "="]).between target (spells_value s)
  exact (by decide : Closes ";" [";"]).behind assignment

theorem spells_input (v : Variable) :
    Spells ("    " ++ signal (.input v) ++ " : in std_logic;") (inputWords v) :=
  spells_around (by decide : Opens "    " []) (isName_signal (.input v))
    (by decide : Closes " : in std_logic;" [":", "in", "std_logic", ";"])

theorem spells_wire (w : Nat) :
    Spells ("  signal " ++ signal (.wire w) ++ " : std_logic;") (wireWords w) :=
  spells_around (by decide : Opens "  signal " ["signal"]) (isName_signal (.wire w))
    (by decide : Closes " : std_logic;" [":", "std_logic", ";"])

theorem forall₂_opening {name : String} (isName : IsName name) :
    List.Forall₂ Spells
      ["library ieee;", "use ieee.std_logic_1164.all;", "", "entity " ++ name ++ " is", "  port ("]
      (openingWords name) := by
  have entity := spells_around (by decide : Opens "entity " ["entity"]) isName
    (by decide : Closes " is" ["is"])
  exact .cons (by decide) (.cons (by decide) (.cons (by decide) (.cons entity
    (.cons (by decide) .nil))))

theorem forall₂_middle {name : String} (isName : IsName name) :
    List.Forall₂ Spells
      ["    result : out std_logic", "  );", "end entity " ++ name ++ ";", "",
        "architecture dataflow of " ++ name ++ " is"]
      (middleWords name) := by
  have entity := spells_around (by decide : Opens "end entity " ["end", "entity"]) isName
    (by decide : Closes ";" [";"])
  have architecture := spells_around
    (by decide : Opens "architecture dataflow of " ["architecture", "dataflow", "of"]) isName
    (by decide : Closes " is" ["is"])
  exact .cons (by decide) (.cons (by decide) (.cons entity (.cons (by decide)
    (.cons architecture .nil))))

theorem forall₂_lines (n : Netlist) {name : String} (isName : IsName name) :
    List.Forall₂ Spells (lines n name)
      (headWords n name ++ [["begin"]] ++ n.statements.map statementWords ++
        [["end", "architecture", "dataflow", ";"]]) := by
  have head := List.rel_append (List.rel_append (List.rel_append (forall₂_opening isName)
    (forall₂_map spells_input n.inputs)) (forall₂_middle isName))
    (forall₂_map spells_wire n.wires)
  have separator : List.Forall₂ Spells ["begin"] [["begin"]] := .cons (by decide) .nil
  have closing : List.Forall₂ Spells ["end architecture dataflow;"]
      [["end", "architecture", "dataflow", ";"]] := .cons (by decide) .nil
  exact List.rel_append (List.rel_append (List.rel_append head separator)
    (forall₂_map spells_statement n.statements)) closing

theorem flatMap_declared_opening (role : Role) (name : String) :
    (openingWords name).flatMap (declared role) = [] := by
  cases role <;> simp [declared, openingWords]

theorem flatMap_declared_middle (role : Role) (name : String) :
    (middleWords name).flatMap (declared role) =
      if role = .output then [signal .result] else [] := by
  cases role <;> simp [declared, middleWords, signal]

theorem flatMap_declared_inputs (role : Role) (vs : List Variable) :
    (vs.map inputWords).flatMap (declared role) =
      if role = .input then vs.map fun v => signal (.input v) else [] := by
  rw [List.flatMap_map]
  cases role <;> simp [declared, inputWords, List.map_eq_flatMap]

theorem flatMap_declared_wires (role : Role) (ws : List Nat) :
    (ws.map wireWords).flatMap (declared role) =
      if role = .wire then ws.map fun w => signal (.wire w) else [] := by
  rw [List.flatMap_map]
  cases role <;> simp [declared, wireWords, List.map_eq_flatMap]

theorem declarations?_headWords (n : Netlist) (name : String) (role : Role) :
    reader.declarations? role (headWords n name) =
      some ((Description.ofNetlist n).signals role) := by
  have found : (headWords n name).flatMap (declared role) =
      ((Description.ofNetlist n).signals role).map signal := by
    rw [headWords, List.flatMap_append, List.flatMap_append, List.flatMap_append,
      flatMap_declared_opening, flatMap_declared_inputs, flatMap_declared_middle,
      flatMap_declared_wires]
    cases role <;> simp [Description.ofNetlist, signals]
  exact Reader.declarations?_eq_some signal?_signal found

theorem begin_not_mem_headWords (n : Netlist) (name : String) : ["begin"] ∉ headWords n name := by
  simp [headWords, openingWords, middleWords, inputWords, wireWords]

theorem driver?_statementWords (s : Statement) :
    driver? (statementWords s) = some (ofStatement s) := by
  cases s with
  | constant w b =>
      have value : constant? ("'" ++ toString b.toNat ++ "'") = some (toString b.toNat) := by
        cases b <;> decide
      exact assignment?_wire signal?_signal value w
  | not w a =>
      have read := gate?_eq_some signal?_signal "NOT" (.wire w) [a]
      change driver? [signal (.wire w), "<", "=", "not", signal a, ";"] = _
      rwa [driver?]
  | binary op w a b =>
      cases op with
      | and =>
          have read := gate?_eq_some signal?_signal "AND" (.wire w) [a, b]
          change driver? [signal (.wire w), "<", "=", signal a, "and", signal b, ";"] = _
          rwa [driver?]
      | or =>
          have read := gate?_eq_some signal?_signal "OR" (.wire w) [a, b]
          change driver? [signal (.wire w), "<", "=", signal a, "or", signal b, ";"] = _
          rwa [driver?]
  | result a => exact assignment?_result signal?_signal constant? a

/-- The text of a netlist says what its statements say. -/
theorem read?_text (n : Netlist) {name : String} (isName : IsName name) :
    reader.read? (text n name) = some (Description.ofNetlist n) := by
  refine Reader.read?_eq_some (forall₂_lines n isName) (begin_not_mem_headWords n name) ?_
    (declarations?_headWords n name) (mapM_map_eq_some driver?_statementWords _)
  intro member
  obtain ⟨s, _, same⟩ := List.mem_map.mp member
  have second : some "<" = some "architecture" := congrArg (·[1]?) same
  exact absurd second (by decide)

end SwitchingLogic.Vhdl
