import SwitchingLogic.Circuit.Verilog
import SwitchingLogic.Proofs.Circuit.Reading

/-!
# Reading Verilog

The text of a Verilog module says what its netlist says: the declarations name its signals, each
primitive instance is a gate that computes something, and each assignment is a constant or the
output.
-/

namespace SwitchingLogic.Verilog

open Description

def keyword : Role → String
  | .input => "input"
  | .output => "output"
  | .wire => "wire"

/-- The word is none of the marks between the names of a list and at its end. -/
def isEntry (word : String) : Bool := word != "," && word != ";"

def declared (role : Role) : List String → List String
  | first :: rest => if first = keyword role then rest.filter isEntry else []
  | [] => []

def signal? (name : String) : Option Signal :=
  match internal? name.toList, name.toList with
  | some s, _ => some s
  | none, [c] => (Variable.ofLetter? c).map .input
  | _, _ => none

def constant? : String → Option String
  | "1'b0" => some "0"
  | "1'b1" => some "1"
  | _ => none

def driver? : List String → Option Driver
  | ["assign", t, "=", v, ";"] => assignment? signal? constant? t v
  | ["not", _, "(", t, ",", a, ")", ";"] => gate? signal? "NOT" t [a]
  | ["and", _, "(", t, ",", a, ",", b, ")", ";"] => gate? signal? "AND" t [a, b]
  | ["or", _, "(", t, ",", a, ",", b, ")", ";"] => gate? signal? "OR" t [a, b]
  | _ => none

def reader : Reader := ⟨[], ["endmodule"], declared, signal?, driver?⟩

theorem signal?_signal (s : Signal) : signal? (signal s) = some s := by
  cases s with
  | input v =>
      obtain ⟨index⟩ := v
      revert index
      decide +kernel
  | wire n =>
      have name : (signal (.wire n)).toList = 'w' :: (toString n).toList := String.toList_append
      rw [signal?, name, internal?_wire]
  | result => decide +kernel

theorem isName_signal (s : Signal) : IsName (signal s) := by
  cases s with
  | input v =>
      obtain ⟨index⟩ := v
      revert index
      decide +kernel
  | wire n => exact (by decide : IsName "w").append (isName_toString n)
  | result => decide

def nameWords (signals : List Signal) : List String := (signals.map signal).intersperse ","

def declarationWords (role : Role) (signals : List Signal) : List (List String) :=
  if signals.isEmpty then [] else [keyword role :: (nameWords signals ++ [";"])]

def statementWords : Statement → List String
  | .constant w b => ["assign", signal (.wire w), "=", "1'b" ++ toString b.toNat, ";"]
  | .not w a => ["not", "g" ++ toString w, "(", signal (.wire w), ",", signal a, ")", ";"]
  | .binary op w a b =>
      [primitive op, "g" ++ toString w, "(", signal (.wire w), ",", signal a, ",", signal b, ")",
        ";"]
  | .result a => ["assign", signal .result, "=", signal a, ";"]

def headWords (n : Netlist) (name : String) : List (List String) :=
  (["module", name, "("] ++ nameWords (n.inputs.map .input ++ [.result]) ++ [")", ";"]) ::
    (declarationWords .input (n.inputs.map .input) ++ declarationWords .output [.result] ++
      declarationWords .wire (n.wires.map .wire))

theorem spells_names (signals : List Signal) : Spells (names signals) (nameWords signals) := by
  refine spells_intercalate fun name member => ?_
  obtain ⟨s, _, rfl⟩ := List.mem_map.mp member
  exact isName_signal s

theorem spells_instantiate {primitive : String} (isName : IsName primitive) (w : Nat)
    (read : List Signal) : Spells (instantiate primitive w read)
      ([primitive, "g" ++ toString w, "("] ++ nameWords (.wire w :: read) ++ [")", ";"]) := by
  have gate : IsName ("g" ++ toString w) := (by decide : IsName "g").append (isName_toString w)
  have seam (s : String) : " g" ++ s = " " ++ ("g" ++ s) :=
    (String.append_assoc : " " ++ "g" ++ s = _)
  have line : instantiate primitive w read =
      "  " ++ primitive ++ " " ++ ("g" ++ toString w) ++ "(" ++ names (.wire w :: read) ++
        ");" := by
    change "  " ++ primitive ++ " g" ++ toString w ++ "(" ++ names _ ++ ");" = _
    simp only [String.append_assoc, seam]
  have start := (by decide : Opens "  " []).before isName.spells
  have named := (by decide : Separates " " []).between start gate.spells
  have read := (by decide : Separates "(" ["("]).between named (spells_names (.wire w :: read))
  rw [line]
  exact (by decide : Closes ");" [")", ";"]).behind read

theorem spells_statement (s : Statement) : Spells (statement s) (statementWords s) := by
  cases s with
  | constant w b =>
      have line : statement (.constant w b) =
          "  assign " ++ signal (.wire w) ++ (" = 1'b" ++ toString b.toNat ++ ";") := by
        rw [← String.append_assoc, ← String.append_assoc]
        rfl
      have value : Closes (" = 1'b" ++ toString b.toNat ++ ";")
          ["=", "1'b" ++ toString b.toNat, ";"] := by
        cases b <;> decide
      rw [line]
      exact spells_around (by decide : Opens "  assign " ["assign"]) (isName_signal (.wire w)) value
  | not w a => exact spells_instantiate (by decide) w [a]
  | binary op w a b => exact spells_instantiate (by cases op <;> decide) w [a, b]
  | result a =>
      exact spells_around (by decide : Opens "  assign result = " ["assign", "result", "="])
        (isName_signal a) (by decide : Closes ";" [";"])

theorem forall₂_declare (role : Role) (signals : List Signal) :
    List.Forall₂ Spells (declare (keyword role) signals) (declarationWords role signals) := by
  rw [declare, declarationWords]
  split
  · exact .nil
  · have start : Spells ("  " ++ keyword role) [keyword role] := by
      cases role <;> decide
    have line := (by decide : Separates " " []).between start (spells_names signals)
    exact .cons ((by decide : Closes ";" [";"]).behind line) .nil

theorem forall₂_lines (n : Netlist) {name : String} (isName : IsName name) :
    List.Forall₂ Spells (lines n name)
      (headWords n name ++ [[]] ++ n.statements.map statementWords ++ [["endmodule"]]) := by
  have start := (by decide : Opens "module " ["module"]).before isName.spells
  have ports := (by decide : Separates "(" ["("]).between start
    (spells_names (n.inputs.map .input ++ [.result]))
  have first := (by decide : Closes ");" [")", ";"]).behind ports
  have declarations := List.rel_append (List.rel_append
    (forall₂_declare .input (n.inputs.map .input)) (forall₂_declare .output [.result]))
    (forall₂_declare .wire (n.wires.map .wire))
  have separator : List.Forall₂ Spells [""] [[]] := .cons (by decide) .nil
  have closing : List.Forall₂ Spells ["endmodule"] [["endmodule"]] := .cons (by decide) .nil
  exact List.rel_append (List.rel_append (List.rel_append (.cons first declarations) separator)
    (forall₂_map spells_statement n.statements)) closing

theorem isEntry_signal (s : Signal) : isEntry (signal s) = true := by
  have isName := isName_signal s
  rw [isEntry, Bool.and_eq_true, bne_iff_ne, bne_iff_ne]
  refine ⟨fun same => ?_, fun same => ?_⟩
  · exact absurd (same ▸ isName) (by decide)
  · exact absurd (same ▸ isName) (by decide)

/-- The names of a list are what is left without the marks between them. -/
theorem filter_nameWords (signals : List Signal) :
    (nameWords signals ++ [";"]).filter isEntry = signals.map signal := by
  rw [List.filter_append, nameWords]
  induction signals with
  | nil => rfl
  | cons s rest ih =>
      cases rest with
      | nil =>
          rw [List.map_cons, List.map_nil, List.intersperse_singleton,
            List.filter_cons_of_pos (isEntry_signal s)]
          rfl
      | cons next rest =>
          rw [List.map_cons, List.map_cons, List.intersperse_cons_cons,
            List.filter_cons_of_pos (isEntry_signal s), List.filter_cons_of_neg (by decide)]
          exact congrArg (signal s :: ·) ih

theorem flatMap_declarationWords (role role' : Role) (signals : List Signal) :
    (declarationWords role' signals).flatMap (declared role) =
      if role' = role then signals.map signal else [] := by
  rw [declarationWords]
  split
  · rename_i empty
    rw [List.isEmpty_iff.mp empty]
    simp
  · rw [List.flatMap_singleton, declared, filter_nameWords]
    cases role <;> cases role' <;> rfl

theorem declarations?_headWords (n : Netlist) (name : String) (role : Role) :
    reader.declarations? role (headWords n name) =
      some ((Description.ofNetlist n).signals role) := by
  have first : declared role (["module", name, "("] ++
      nameWords (n.inputs.map .input ++ [.result]) ++ [")", ";"]) = [] :=
    if_neg (by cases role <;> decide)
  have found : (headWords n name).flatMap (declared role) =
      ((Description.ofNetlist n).signals role).map signal := by
    rw [headWords, List.flatMap_cons, List.flatMap_append, List.flatMap_append, first,
      flatMap_declarationWords, flatMap_declarationWords, flatMap_declarationWords]
    cases role
    · exact (List.append_nil _).trans (List.append_nil _)
    · rfl
    · rfl
  exact Reader.declarations?_eq_some signal?_signal found

theorem nil_not_mem_headWords (n : Netlist) (name : String) : [] ∉ headWords n name := by
  have declaration (role : Role) (signals : List Signal) :
      [] ∉ declarationWords role signals := by
    rw [declarationWords]
    split
    · exact List.not_mem_nil
    · exact fun member => nomatch List.mem_singleton.mp member
  rw [headWords, List.mem_cons, List.mem_append, List.mem_append]
  rintro (same | (member | member) | member)
  · exact nomatch same
  all_goals exact declaration _ _ member

theorem driver?_statementWords (s : Statement) :
    driver? (statementWords s) = some (ofStatement s) := by
  cases s with
  | constant w b =>
      have value : constant? ("1'b" ++ toString b.toNat) = some (toString b.toNat) := by
        cases b <;> decide
      exact assignment?_wire signal?_signal value w
  | not w a => exact gate?_eq_some signal?_signal "NOT" (.wire w) [a]
  | binary op w a b =>
      cases op with
      | and => exact gate?_eq_some signal?_signal "AND" (.wire w) [a, b]
      | or => exact gate?_eq_some signal?_signal "OR" (.wire w) [a, b]
  | result a => exact assignment?_result signal?_signal constant? a

/-- The text of a netlist says what its statements say. -/
theorem read?_text (n : Netlist) {name : String} (isName : IsName name) :
    reader.read? (text n name) = some (Description.ofNetlist n) := by
  refine Reader.read?_eq_some (forall₂_lines n isName) (nil_not_mem_headWords n name)
    ?_ (declarations?_headWords n name) (mapM_map_eq_some driver?_statementWords _)
  intro member
  obtain ⟨s, _, same⟩ := List.mem_map.mp member
  cases s <;> exact nomatch congrArg List.tail same

end SwitchingLogic.Verilog
