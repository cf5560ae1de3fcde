import SwitchingLogic.Circuit.Statement
import SwitchingLogic.Proofs.Circuit.Words

/-!
# Reading a description

What a hardware description says about a netlist is its signals and, for every gate that is no
input, what drives the signal of the gate.  It is read from the text alone: the signals from the
declarations at the beginning, the gates from the lines behind them.  The two languages differ in
how these lines look and in how signals are named.
-/

namespace SwitchingLogic

/-- What a description says about a gate: the name of its sort, its inscription, the signal that
it drives and the signals that it reads. -/
structure Description.Driver where
  kind : String
  label : String
  target : Signal
  operands : List Signal
  deriving DecidableEq, Repr

structure Description where
  inputs : List Signal
  outputs : List Signal
  wires : List Signal
  drivers : List Description.Driver
  deriving DecidableEq, Repr

namespace Description

/-- What signals are declared for. -/
inductive Role where
  | input
  | output
  | wire
  deriving DecidableEq, Repr

def signals (d : Description) : Role → List Signal
  | .input => d.inputs
  | .output => d.outputs
  | .wire => d.wires

/-- How a language is read: the line between the declarations and the gates, the line behind the
gates, the names that a line declares, the signal of a name, and the gate of a line. -/
structure Reader where
  separator : List String
  closing : List String
  declared : Role → List String → List String
  signal? : String → Option Signal
  driver? : List String → Option Driver

/-- The lines in front of the first separating line, and those from there to the closing line. -/
def sections (separator closing : List String) (lines : List (List String)) :
    List (List String) × List (List String) :=
  (lines.takeWhile (· ≠ separator),
    ((lines.dropWhile (· ≠ separator)).drop 1).takeWhile (· ≠ closing))

namespace Reader

def declarations? (r : Reader) (role : Role) (head : List (List String)) : Option (List Signal) :=
  (head.flatMap (r.declared role)).mapM r.signal?

def read? (r : Reader) (text : String) : Option Description := do
  let (head, body) := sections r.separator r.closing (wordLines text)
  return ⟨← r.declarations? .input head, ← r.declarations? .output head,
    ← r.declarations? .wire head, ← body.mapM r.driver?⟩

end Reader

/-- The signal of a name that is not the name of a variable: the result, or the wire of a number. -/
def internal? (name : List Char) : Option Signal :=
  match name with
  | 'w' :: digits =>
      if digits.isEmpty || !digits.all Char.isDigit then none
      else some (.wire (Nat.ofDigitChars 10 digits 0))
  | _ => if name = "result".toList then some .result else none

theorem internal?_wire (n : Nat) : internal? ('w' :: (toString n).toList) = some (.wire n) := by
  rw [Nat.toString_eq_repr, Nat.toList_repr, internal?, if_neg, Nat.ofDigitChars_ten_toDigits]
  have digits : (Nat.toDigits 10 n).all Char.isDigit = true :=
    List.all_eq_true.mpr fun _ => Nat.isDigit_of_mem_toDigits (by decide) (by decide)
  rw [digits, List.isEmpty_eq_false_iff.mpr Nat.toDigits_ne_nil]
  exact Bool.false_ne_true

/-- Digits have no case. -/
theorem map_toLower_toString (n : Nat) :
    (toString n).toList.map Char.toLower = (toString n).toList := by
  rw [Nat.toString_eq_repr, Nat.toList_repr]
  refine (List.map_congr_left fun c member => ?_).trans (List.map_id _)
  have digit : c.isDigit = true := Nat.isDigit_of_mem_toDigits (by decide) (by decide) member
  refine dif_neg fun upper => ?_
  rw [Char.isDigit, Bool.and_eq_true, decide_eq_true_eq, decide_eq_true_eq] at digit
  exact absurd (UInt32.le_trans upper.1 digit.2) (by decide)

/-- The gate of a plain assignment: the output if it is the result that is driven, and a constant
if it is a wire. -/
def assignment? (signal? : String → Option Signal) (constant? : String → Option String)
    (target value : String) : Option Driver := do
  match ← signal? target with
  | .result => return ⟨"OUTPUT", "result", .result, [← signal? value]⟩
  | .wire w => return ⟨"CONSTANT", ← constant? value, .wire w, []⟩
  | .input _ => none

/-- A gate that computes something is inscribed with the name of its sort. -/
def gate? (signal? : String → Option Signal) (kind target : String) (operands : List String) :
    Option Driver :=
  return ⟨kind, kind, ← signal? target, ← operands.mapM signal?⟩

def ofStatement : Statement → Driver
  | .constant w b => ⟨"CONSTANT", toString b.toNat, .wire w, []⟩
  | .not w a => ⟨"NOT", "NOT", .wire w, [a]⟩
  | .binary .and w a b => ⟨"AND", "AND", .wire w, [a, b]⟩
  | .binary .or w a b => ⟨"OR", "OR", .wire w, [a, b]⟩
  | .result a => ⟨"OUTPUT", "result", .result, [a]⟩

def ofNetlist (n : Netlist) : Description :=
  ⟨n.inputs.map .input, [.result], n.wires.map .wire, n.statements.map ofStatement⟩

theorem mapM_map_eq_some {α β γ : Type} {f : α → β} {g : β → Option γ} {h : α → γ}
    (same : ∀ x, g (f x) = some (h x)) (l : List α) : (l.map f).mapM g = some (l.map h) := by
  rw [List.mapM_map, show g ∘ f = fun x => pure (h x) from funext same, List.mapM_pure]
  rfl

section

variable {signal? : String → Option Signal} {signal : Signal → String}

theorem gate?_eq_some (read : ∀ s, signal? (signal s) = some s) (kind : String) (target : Signal)
    (operands : List Signal) : gate? signal? kind (signal target) (operands.map signal) =
      some ⟨kind, kind, target, operands⟩ := by
  rw [gate?, read, mapM_map_eq_some read, List.map_id']
  rfl

theorem assignment?_result (read : ∀ s, signal? (signal s) = some s)
    (constant? : String → Option String) (a : Signal) :
    assignment? signal? constant? (signal .result) (signal a) =
      some ⟨"OUTPUT", "result", .result, [a]⟩ := by
  rw [assignment?, read, read]
  rfl

theorem assignment?_wire (read : ∀ s, signal? (signal s) = some s)
    {constant? : String → Option String} {value label : String}
    (constant : constant? value = some label) (w : Nat) :
    assignment? signal? constant? (signal (.wire w)) value =
      some ⟨"CONSTANT", label, .wire w, []⟩ := by
  rw [assignment?, read, constant]
  rfl

end

theorem sections_append {separator closing : List String} {head body : List (List String)}
    (rest : List (List String)) (outside : separator ∉ head) (inside : closing ∉ body) :
    sections separator closing (head ++ [separator] ++ body ++ [closing] ++ rest) =
      (head, body) := by
  have before : ∀ line ∈ head, decide (line ≠ separator) = true := fun line member =>
    decide_eq_true fun same => outside (same ▸ member)
  have between : ∀ line ∈ body, decide (line ≠ closing) = true := fun line member =>
    decide_eq_true fun same => inside (same ▸ member)
  simp only [List.append_assoc, List.cons_append, List.nil_append]
  rw [sections, List.takeWhile_append_of_pos before, List.dropWhile_append_of_pos before,
    List.takeWhile_cons_of_neg (by simp), List.dropWhile_cons_of_neg (by simp), List.append_nil,
    List.drop_one, List.tail_cons, List.takeWhile_append_of_pos between,
    List.takeWhile_cons_of_neg (by simp), List.append_nil]

theorem Reader.declarations?_eq_some {r : Reader} {signal : Signal → String} {role : Role}
    {head : List (List String)} {declared : List Signal}
    (read : ∀ s, r.signal? (signal s) = some s)
    (found : head.flatMap (r.declared role) = declared.map signal) :
    r.declarations? role head = some declared := by
  rw [declarations?, found, mapM_map_eq_some read, List.map_id']

/-- A text is read as a description if its lines declare the signals and name the gates. -/
theorem Reader.read?_eq_some {r : Reader} {d : Description} {lines : List String}
    {head body : List (List String)}
    (spelled : List.Forall₂ Spells lines (head ++ [r.separator] ++ body ++ [r.closing]))
    (outside : r.separator ∉ head) (inside : r.closing ∉ body)
    (declared : ∀ role, r.declarations? role head = some (d.signals role))
    (driven : body.mapM r.driver? = some d.drivers) :
    r.read? (String.join (lines.map (· ++ "\n"))) = some d := by
  rw [read?, wordLines_join spelled, sections_append _ outside inside]
  simp only [declared, driven, signals]
  rfl

end Description

end SwitchingLogic
