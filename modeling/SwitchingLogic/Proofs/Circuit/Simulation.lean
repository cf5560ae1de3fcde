import Mathlib.Data.List.Infix
import SwitchingLogic.Circuit.Netlist

/-!
# Simulation of netlists

Gates are computed one after the other, so a netlist that goes on after another one computes the
values of that one first.  Where every gate reads only gates in front of it, each value that is
read has been computed before.
-/

namespace SwitchingLogic

/-- The value of a gate from its record alone: a variable and a constant are read back from the
inscription, and there is no value if a gate is read that has none yet. -/
def Node.run? (s : State) (values : Array Bool) (node : Node) : Option Bool :=
  match node with
  | .source (.input _) => (Variable.read node.label).toOption.map s.isActive
  | .source (.constant _) => some (node.label == "1")
  | .not a => values[a]?.map (!·)
  | .binary op a b => do return op.eval (← values[a]?) (← values[b]?)
  | .output a => values[a]?

theorem Variable.read_letter (v : Variable) : read v.letter.toString = .ok v := by
  obtain ⟨index⟩ := v
  revert index
  decide +kernel

/-- A gate that reads only computed values has a value. -/
theorem Node.run?_eq_some {s : State} {values : Array Bool} {node : Node}
    (computed : ∀ a ∈ node.operands, a < values.size) :
    node.run? s values = some (node.eval s values) := by
  have read {a : Nat} (operand : a ∈ node.operands) : values[a]? = some (values.getD a false) := by
    rw [Array.getD_eq_getD_getElem?, Array.getElem?_eq_getElem (computed a operand)]
    rfl
  cases node with
  | source source =>
      cases source with
      | input v => rw [run?, label, Variable.read_letter]; rfl
      | constant value => cases value <;> rfl
  | not a => rw [run?, read (by simp [operands])]; rfl
  | binary op a b => rw [run?, read (by simp [operands]), read (by simp [operands])]; rfl
  | output a => rw [run?, read (by simp [operands])]; rfl

/-- The value of a gate depends on the values that it reads only. -/
theorem Node.eval_congr {s : State} {values values' : Array Bool} {node : Node}
    (same : ∀ a ∈ node.operands, values.getD a false = values'.getD a false) :
    node.eval s values = node.eval s values' := by
  cases node with
  | source source => cases source <;> rfl
  | not a => rw [eval, eval, same a (by simp [operands])]
  | binary op a b => rw [eval, eval, same a (by simp [operands]), same b (by simp [operands])]
  | output a => rw [eval, eval, same a (by simp [operands])]

namespace Netlist

/-- The values of all gates in a state, if every gate finds the values that it reads. -/
def run? (n : Netlist) (s : State) : Option (Array Bool) :=
  n.gates.foldlM (fun values g => (g.node.run? s values).map values.push) #[]

theorem simulate_eq_foldl (n : Netlist) (s : State) :
    n.simulate s =
      n.gates.toList.foldl (fun values g => values.push (g.node.eval s values)) #[] := by
  rw [simulate, Array.foldl_toList]

theorem simulate_push (gates : Array Gate) (g : Gate) (s : State) :
    (mk (gates.push g)).simulate s =
      ((mk gates).simulate s).push (g.node.eval s ((mk gates).simulate s)) := by
  rw [simulate, Array.foldl_push]
  rfl

theorem size_simulate (n : Netlist) (s : State) : (n.simulate s).size = n.gates.size :=
  Array.foldl_induction (fun count (values : Array Bool) => values.size = count) rfl
    fun place values ih => by rw [Array.size_push, ih]

/-- The gates of the first netlist come first in the second. -/
def Begins (n m : Netlist) : Prop := n.gates.toList <+: m.gates.toList

theorem Begins.trans {n m k : Netlist} (first : n.Begins m) (second : m.Begins k) : n.Begins k :=
  List.IsPrefix.trans first second

theorem foldl_push_getD (s : State) (gates : List Gate) {values : Array Bool} {id : Nat}
    (inside : id < values.size) :
    (gates.foldl (fun values g => values.push (g.node.eval s values)) values).getD id false =
      values.getD id false := by
  induction gates generalizing values with
  | nil => rfl
  | cons g rest ih =>
      rw [List.foldl_cons, ih (by rw [Array.size_push]; exact Nat.lt_succ_of_lt inside)]
      simp [Array.getD_eq_getD_getElem?, Array.getElem?_push, Nat.ne_of_lt inside]

/-- Later gates do not change the values of the gates in front. -/
theorem Begins.getD_simulate {n m : Netlist} (begins : n.Begins m) (s : State) {id : Nat}
    (inside : id < n.gates.size) :
    (m.simulate s).getD id false = (n.simulate s).getD id false := by
  obtain ⟨rest, gates⟩ := begins
  rw [simulate_eq_foldl m, ← gates, List.foldl_append, ← simulate_eq_foldl]
  exact foldl_push_getD s rest (by rwa [size_simulate])

theorem Begins.getElem?_gates {n m : Netlist} (begins : n.Begins m) {id : Nat}
    (inside : id < n.gates.size) : m.gates[id]? = n.gates[id]? := by
  obtain ⟨rest, gates⟩ := begins
  rw [← Array.getElem?_toList, ← gates, List.getElem?_append_left inside, Array.getElem?_toList]

/-- In a simulation every gate that reads only gates in front of it has the value that it computes
from the values of the others. -/
theorem getD_simulate {n : Netlist} {id : Nat} {g : Gate} (found : n.gates[id]? = some g)
    (ordered : ∀ a ∈ g.node.operands, a < id) (s : State) :
    (n.simulate s).getD id false = g.node.eval s (n.simulate s) := by
  obtain ⟨inside, rfl⟩ := Array.getElem?_eq_some_iff.mp found
  have inside' : id < n.gates.toList.length := inside
  let front : Netlist := ⟨(n.gates.toList.take id).toArray⟩
  have size : front.gates.size = id := by simp [front, Nat.le_of_lt inside]
  have begins : front.Begins n := List.take_prefix id n.gates.toList
  have next : (mk (front.gates.push n.gates[id])).Begins n := by
    rw [Begins, Array.toList_push]
    have step := List.take_append_getElem inside'
    rw [Array.getElem_toList] at step
    exact step ▸ List.take_prefix (id + 1) n.gates.toList
  calc (n.simulate s).getD id false
      = ((mk (front.gates.push n.gates[id])).simulate s).getD id false :=
        next.getD_simulate s (by rw [Array.size_push, size]; exact Nat.lt_succ_self id)
    _ = n.gates[id].node.eval s (front.simulate s) := by
        have length : (front.simulate s).size = id := (front.size_simulate s).trans size
        rw [simulate_push, Array.getD_eq_getD_getElem?, Array.getElem?_push, if_pos length.symm]
        rfl
    _ = n.gates[id].node.eval s (n.simulate s) :=
        Node.eval_congr fun a operand =>
          (begins.getD_simulate s (size.symm ▸ ordered a operand)).symm

theorem foldlM_run? (s : State) {gates : List Gate} {values : Array Bool}
    (ordered : ∀ place g, gates[place]? = some g →
      ∀ a ∈ g.node.operands, a < values.size + place) :
    gates.foldlM (fun values g => (g.node.run? s values).map values.push) values =
      some (gates.foldl (fun values g => values.push (g.node.eval s values)) values) := by
  induction gates generalizing values with
  | nil => rfl
  | cons g rest ih =>
      have first : g.node.run? s values = some (g.node.eval s values) :=
        Node.run?_eq_some (ordered 0 g rfl)
      rw [List.foldlM_cons, first, List.foldl_cons]
      refine ih fun place later found a operand => ?_
      have below := ordered (place + 1) later found a operand
      rw [Array.size_push]
      omega

/-- Where all gates read only gates in front of them, the simulation never reads a value that is
not there. -/
theorem run?_eq_some {n : Netlist} (ordered : ∀ (place : Nat) (g : Gate),
    n.gates[place]? = some g → ∀ a ∈ g.node.operands, a < place) (s : State) :
    n.run? s = some (n.simulate s) := by
  rw [run?, ← Array.foldlM_toList, simulate_eq_foldl]
  refine foldlM_run? s fun place g found a operand => ?_
  rw [Array.getElem?_toList] at found
  rw [Array.size_empty, Nat.zero_add]
  exact ordered place g found a operand

end Netlist

end SwitchingLogic
