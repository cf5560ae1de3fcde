import SwitchingLogic.Proofs.Circuit.Netlist
import SwitchingLogic.Proofs.Circuit.Verilog
import SwitchingLogic.Proofs.Circuit.Vhdl

/-!
# Descriptions of circuits

Both texts of a circuit describe its netlist: what is read from either of them is the list of its
gates that are no inputs, in their order.  Every wire is declared once and driven once, by a gate
that reads only inputs and signals driven before it, and no two gates drive signals of one name,
whether or not upper and lower case are told apart.
-/

namespace SwitchingLogic

/-- What a description should say about a gate of a netlist. -/
def Netlist.driver (n : Netlist) (g : Gate) : Description.Driver :=
  ⟨g.node.kind, g.node.label, g.signal, g.node.operands.map n.signal⟩

def Node.isInternal (node : Node) : Bool := !node.isInput && !node.isOutput

/-- A description describes a netlist if it names its inputs and its gates, if its wires are those
of the gates in between, and if every signal that is read is an input or driven before. -/
structure Description.Describes (d : Description) (n : Netlist) : Prop where
  inputs_eq : d.inputs = (n.gates.toList.filter (·.node.isInput)).map Gate.signal
  outputs_eq : d.outputs = [.result]
  wires_eq : d.wires = (n.gates.toList.filter (·.node.isInternal)).map Gate.signal
  drivers_eq : d.drivers = (n.gates.toList.filter (!·.node.isInput)).map n.driver
  wires_nodup : d.wires.Nodup
  targets_nodup : (d.drivers.map Driver.target).Nodup
  targets_eq : d.drivers.map Driver.target = d.wires ++ d.outputs
  ordered : ∀ before driver after, d.drivers = before ++ driver :: after →
    ∀ s ∈ driver.operands, s ∈ d.inputs ∨ s ∈ before.map Driver.target

namespace Gate

variable {g : Gate}

theorem node_of_signal_eq_input {v : Variable} (same : g.signal = .input v) :
    g.node = .source (.input v) := by
  rw [signal] at same
  split at same
  · rename_i w input
    rw [input, Signal.input.inj same]
  · exact nomatch same
  · exact nomatch same

theorem id_of_signal_eq_wire {w : Nat} (same : g.signal = .wire w) : g.id = w := by
  rw [signal] at same
  split at same
  · exact nomatch same
  · exact nomatch same
  · exact Signal.wire.inj same

theorem signal_eq_result_iff : g.signal = .result ↔ g.node.isOutput = true := by
  obtain ⟨id, node, level⟩ := g
  cases node with
  | source s => cases s <;> exact iff_of_false nofun nofun
  | output a => exact iff_of_true rfl rfl
  | _ => exact iff_of_false nofun nofun

end Gate

namespace Netlist

variable {n : Netlist}

theorem map_filterMap_eq {α β γ : Type} {f : α → Option β} {g : β → γ} {p : α → Bool} {h : α → γ}
    (same : ∀ x, (f x).map g = if p x then some (h x) else none) (l : List α) :
    (l.filterMap f).map g = (l.filter p).map h := by
  rw [List.map_filterMap]
  induction l with
  | nil => rfl
  | cons x rest ih =>
      cases kept : p x with
      | true =>
          rw [List.filterMap_cons_some (by rw [same, kept]; rfl), List.filter_cons_of_pos kept, ih,
            List.map_cons]
      | false =>
          rw [List.filterMap_cons_none (by rw [same, kept]; rfl), ih,
            List.filter_cons_of_neg (by rw [kept]; exact Bool.false_ne_true)]

theorem inputs_ofNetlist (n : Netlist) : (Description.ofNetlist n).inputs =
    (n.gates.toList.filter (·.node.isInput)).map Gate.signal := by
  refine map_filterMap_eq (fun g => ?_) n.gates.toList
  obtain ⟨id, node, level⟩ := g
  cases node with
  | source s => cases s <;> rfl
  | _ => rfl

theorem drivers_ofNetlist (n : Netlist) : (Description.ofNetlist n).drivers =
    (n.gates.toList.filter (!·.node.isInput)).map n.driver := by
  refine map_filterMap_eq (fun g => ?_) n.gates.toList
  obtain ⟨id, node, level⟩ := g
  cases node with
  | source s => cases s <;> rfl
  | binary op => cases op <;> rfl
  | _ => rfl

theorem wires_ofNetlist (n : Netlist) : (Description.ofNetlist n).wires =
    (n.gates.toList.filter (·.node.isInternal)).map Gate.signal := by
  have wires : n.wires = n.gates.toList.filterMap fun g => (n.statement? g).bind Statement.wire? :=
    List.filterMap_filterMap
  rw [Description.ofNetlist, wires]
  refine map_filterMap_eq (fun g => ?_) n.gates.toList
  obtain ⟨id, node, level⟩ := g
  cases node with
  | source s => cases s <;> rfl
  | _ => rfl

namespace Realizes

variable {e : Expr}

/-- The output is the last gate and the only one of its sort. -/
theorem exists_front (realizes : n.Realizes e) : ∃ front g, n.gates.toList = front ++ [g] ∧
    g.node.isOutput = true ∧ ∀ h ∈ front, h.node.isOutput = false := by
  obtain ⟨g, last, output⟩ := realizes.last
  rw [← Array.getLast?_toList] at last
  obtain ⟨front, whole⟩ := List.getLast?_eq_some_iff.mp last
  refine ⟨front, g, whole, output, ?_⟩
  have single := realizes.outputs
  rw [count, ← Array.countP_toList, whole, List.countP_append, List.countP_singleton,
    if_pos output, Nat.add_eq_right, List.countP_eq_zero] at single
  exact fun h member => Bool.eq_false_iff.mpr (single h member)

theorem getElem?_id (realizes : n.Realizes e) {g : Gate} (member : g ∈ n.gates) :
    n.gates[g.id]? = some g := by
  obtain ⟨place, found⟩ := Array.mem_iff_getElem?.mp member
  rwa [realizes.id_eq place g found]

theorem nodup_gates (realizes : n.Realizes e) : n.gates.toList.Nodup := by
  rw [List.nodup_iff_getElem?_ne_getElem?]
  intro i j less inside same
  have found := List.getElem?_eq_getElem inside
  have found' := same.trans found
  rw [Array.getElem?_toList] at found found'
  rw [← realizes.id_eq i _ found', realizes.id_eq j _ found] at less
  exact absurd less (Nat.lt_irrefl j)

/-- No two gates drive the same signal. -/
theorem eq_of_signal_eq (realizes : n.Realizes e) {g h : Gate} (first : g ∈ n.gates)
    (second : h ∈ n.gates) (same : g.signal = h.signal) : g = h := by
  cases here : g.signal with
  | input v =>
      have there := same.symm.trans here
      exact realizes.sources g first h second _ (Gate.node_of_signal_eq_input here)
        (Gate.node_of_signal_eq_input there)
  | wire w =>
      have there := same.symm.trans here
      have found := realizes.getElem?_id first
      have found' := realizes.getElem?_id second
      rw [Gate.id_of_signal_eq_wire here] at found
      rw [Gate.id_of_signal_eq_wire there, found] at found'
      exact Option.some.inj found'
  | result =>
      have there := same.symm.trans here
      obtain ⟨front, last, whole, _, others⟩ := realizes.exists_front
      have only {k : Gate} (member : k ∈ n.gates) (output : k.signal = .result) : k = last := by
        rw [← Array.mem_toList_iff, whole] at member
        obtain before | only := List.mem_append.mp member
        · have contrary := others k before
          rw [Gate.signal_eq_result_iff.mp output] at contrary
          exact nomatch contrary
        · exact List.mem_singleton.mp only
      rw [only first here, only second there]

theorem targets_eq (realizes : n.Realizes e) :
    (n.gates.toList.filter (!·.node.isInput)).map Gate.signal =
      (n.gates.toList.filter (·.node.isInternal)).map Gate.signal ++ [.result] := by
  obtain ⟨front, last, whole, output, others⟩ := realizes.exists_front
  have between : front.filter (!·.node.isInput) = front.filter (·.node.isInternal) := by
    refine List.filter_congr fun g member => ?_
    rw [Node.isInternal, others g member, Bool.not_false, Bool.and_true]
  have signal : last.signal = .result := Gate.signal_eq_result_iff.mpr output
  have input : last.node.isInput = false := by
    cases node : last.node with
    | output a => rfl
    | _ =>
        rw [node] at output
        exact nomatch output
  have kept : [last].filter (!·.node.isInput) = [last] := by
    rw [List.filter_singleton, input]
    rfl
  have dropped : [last].filter (·.node.isInternal) = [] := by
    rw [List.filter_singleton, Node.isInternal, output, Bool.not_true, Bool.and_false]
    rfl
  rw [whole, List.filter_append, List.filter_append, between, kept, dropped, List.append_nil,
    List.map_append, List.map_singleton, signal]

theorem targets_nodup (realizes : n.Realizes e) :
    ((n.gates.toList.filter (!·.node.isInput)).map Gate.signal).Nodup := by
  refine List.Nodup.map_on (fun g first h second same => ?_) (realizes.nodup_gates.filter _)
  exact realizes.eq_of_signal_eq (Array.mem_toList_iff.mp (List.mem_filter.mp first).1)
    (Array.mem_toList_iff.mp (List.mem_filter.mp second).1) same

/-- What a gate reads is an input or the signal of a gate in front of it. -/
theorem signal_mem (realizes : n.Realizes e) {front back : List Gate} {g : Gate}
    (whole : n.gates.toList = front ++ g :: back) {a : Nat} (operand : a ∈ g.node.operands) :
    ∃ h ∈ front, n.signal a = h.signal := by
  have place : n.gates[front.length]? = some g := by
    rw [← Array.getElem?_toList, whole, List.getElem?_append_right (Nat.le_refl _), Nat.sub_self]
    rfl
  have inside : a < front.length := realizes.operands_lt _ g place a operand
  have found : n.gates[a]? = some front[a] := by
    rw [← Array.getElem?_toList, whole, List.getElem?_append_left inside,
      List.getElem?_eq_getElem inside]
  refine ⟨front[a], List.getElem_mem inside, ?_⟩
  rw [Netlist.signal, found]

/-- Without the inputs, what a gate reads is an input or the signal of a gate in front of it. -/
theorem signal_mem_of_filter (realizes : n.Realizes e) {before after : List Gate} {g : Gate}
    (split : n.gates.toList.filter (!·.node.isInput) = before ++ g :: after) {a : Nat}
    (operand : a ∈ g.node.operands) :
    n.signal a ∈ (n.gates.toList.filter (·.node.isInput)).map Gate.signal ∨
      n.signal a ∈ before.map Gate.signal := by
  obtain ⟨front, back, whole, rfl, back_eq⟩ := List.filter_eq_append_iff.mp split
  obtain ⟨inputs, last, rfl, skipped, _, _⟩ := List.filter_eq_cons_iff.mp back_eq
  rw [← List.append_assoc] at whole
  obtain ⟨h, present, signal⟩ := realizes.signal_mem whole operand
  rw [signal]
  cases input : h.node.isInput with
  | true =>
      refine .inl (List.mem_map_of_mem (List.mem_filter.mpr ⟨?_, input⟩))
      rw [whole]
      exact List.mem_append_left _ present
  | false =>
      obtain kept | between := List.mem_append.mp present
      · refine .inr (List.mem_map_of_mem (List.mem_filter.mpr ⟨kept, ?_⟩))
        rw [input, Bool.not_false]
      · exact absurd (by rw [input, Bool.not_false]) (skipped h between)

end Realizes

end Netlist

theorem Description.describes_ofNetlist {n : Netlist} {e : Expr} (realizes : n.Realizes e) :
    (ofNetlist n).Describes n := by
  have targets : (ofNetlist n).drivers.map Driver.target =
      (n.gates.toList.filter (!·.node.isInput)).map Gate.signal := by
    rw [n.drivers_ofNetlist, List.map_map]
    rfl
  refine {
    inputs_eq := n.inputs_ofNetlist
    outputs_eq := rfl
    wires_eq := n.wires_ofNetlist
    drivers_eq := n.drivers_ofNetlist
    wires_nodup := ?_
    targets_nodup := ?_
    targets_eq := ?_
    ordered := ?_ }
  · have nodup := realizes.targets_nodup
    rw [realizes.targets_eq] at nodup
    rw [n.wires_ofNetlist]
    exact nodup.of_append_left
  · rw [targets]
    exact realizes.targets_nodup
  · rw [targets, realizes.targets_eq, n.wires_ofNetlist]
    rfl
  · intro before driver after split s read
    rw [n.drivers_ofNetlist] at split
    obtain ⟨first, rest, gates, rfl, rest_eq⟩ := List.map_eq_append_iff.mp split
    obtain ⟨g, _, rfl, rfl, _⟩ := List.map_eq_cons_iff.mp rest_eq
    obtain ⟨a, operand, rfl⟩ := List.mem_map.mp read
    rw [n.inputs_ofNetlist, List.map_map]
    exact realizes.signal_mem_of_filter gates operand

/-! ## Names of signals -/

/-- No two gates of a netlist have signals of one name in Verilog, nor in VHDL, where case is not
told apart; and no gate but the output has the name of the result. -/
structure Netlist.NamesApart (n : Netlist) : Prop where
  verilog : ∀ g ∈ n.gates, ∀ h ∈ n.gates,
    Verilog.signal g.signal = Verilog.signal h.signal → g = h
  vhdl : ∀ g ∈ n.gates, ∀ h ∈ n.gates,
    (Vhdl.signal g.signal).toLower = (Vhdl.signal h.signal).toLower → g = h
  result : ∀ g ∈ n.gates, (Vhdl.signal g.signal).toLower = "result" → g.node.isOutput = true

theorem Verilog.signal_injective : Function.Injective Verilog.signal := fun s t same =>
  Option.some.inj ((signal?_signal s).symm.trans (same ▸ signal?_signal t))

/-- In VHDL the names of two signals differ in more than their case. -/
theorem Vhdl.toLower_signal_injective :
    Function.Injective fun s => (Vhdl.signal s).toLower := by
  intro s t same
  have lower : (Vhdl.signal s).toLower = (Vhdl.signal t).toLower := same
  have read : Vhdl.signal? (Vhdl.signal s) = Vhdl.signal? (Vhdl.signal t) := by
    rw [Vhdl.signal?, Vhdl.signal?, lower]
  rw [signal?_signal, signal?_signal] at read
  exact Option.some.inj read

theorem Netlist.Realizes.namesApart {n : Netlist} {e : Expr} (realizes : n.Realizes e) :
    n.NamesApart := by
  refine ⟨fun g first h second same => ?_, fun g first h second same => ?_, fun g _ same => ?_⟩
  · exact realizes.eq_of_signal_eq first second (Verilog.signal_injective same)
  · exact realizes.eq_of_signal_eq first second (Vhdl.toLower_signal_injective same)
  · have result : (Vhdl.signal .result).toLower = "result" := by decide +kernel
    exact Gate.signal_eq_result_iff.mp (Vhdl.toLower_signal_injective (same.trans result.symm))

/-- Only the inputs named by lower-case letters have another name in VHDL. -/
theorem Vhdl.signal_eq (s : Signal) : Vhdl.signal s = Verilog.signal s ∨
    ∃ v, s = .input v ∧ v.letter.isLower = true ∧ Vhdl.signal s = Verilog.signal s ++ "_lc" := by
  cases s with
  | input v =>
      rw [Vhdl.signal]
      split
      · rename_i lower
        exact .inr ⟨v, rfl, lower, rfl⟩
      · exact .inl rfl
  | wire w => exact .inl rfl
  | result => exact .inl rfl

/-! ## Circuits -/

theorem Circuit.isName_of_isModuleName {name : String}
    (named : isModuleName name.toList = true) : Description.IsName name := by
  rw [isModuleName, Bool.and_eq_true, Bool.and_eq_true, List.all_eq_true] at named
  obtain ⟨⟨first, inside⟩, _⟩ := named
  refine ⟨fun empty => ?_, fun c member => ?_⟩
  · rw [empty] at first
    exact nomatch first
  · rw [Description.isNameChar, inside c member, Bool.true_or]

/-- Under an accepted name both texts of the circuit of a formula describe its netlist, and no two
of its gates share a name. -/
theorem Circuit.exists_build_described (f : Formula) (o : Options)
    (named : isModuleName o.moduleName.toList = true) :
    ∃ c d, build f o = .ok c ∧ Verilog.reader.read? c.verilog = some d ∧
      Vhdl.reader.read? c.vhdl = some d ∧ d.Describes c.netlist ∧ c.netlist.NamesApart ∧
      ∀ s, Vhdl.signal s = Verilog.signal s ∨
        ∃ v, s = .input v ∧ v.letter.isLower = true ∧
          Vhdl.signal s = Verilog.signal s ++ "_lc" := by
  have isName := isName_of_isModuleName named
  have realizes := Netlist.realizes_ofExpr f.expr
  exact ⟨_, _, build_of_isModuleName f named, Verilog.read?_text _ isName, Vhdl.read?_text _ isName,
    Description.describes_ofNetlist realizes, realizes.namesApart, Vhdl.signal_eq⟩

theorem Circuit.exists_build_described_mixed_case :
    let f : Formula := ⟨"Aa+1", "Aa+1", .binary .or (.binary .and (.var ⟨0⟩) (.var ⟨26⟩))
      (.const true)⟩
    let o : Options := { Options.default with moduleName := "begin" }
    isModuleName o.moduleName.toList = true ∧
      ∃ c d, build f o = .ok c ∧ Verilog.reader.read? c.verilog = some d ∧
        Vhdl.reader.read? c.vhdl = some d ∧ d.wires = [.wire 2, .wire 3, .wire 4] ∧
        d.drivers = [⟨"AND", "AND", .wire 2, [.input ⟨0⟩, .input ⟨26⟩]⟩,
          ⟨"CONSTANT", "1", .wire 3, []⟩, ⟨"OR", "OR", .wire 4, [.wire 2, .wire 3]⟩,
          ⟨"OUTPUT", "result", .result, [.wire 4]⟩] := by
  intro f o
  have named : isModuleName o.moduleName.toList = true := by decide
  obtain ⟨c, d, built, verilog, vhdl, describes, _⟩ := exists_build_described f o named
  have same : c.netlist = .ofExpr f.expr :=
    congrArg netlist (Except.ok.inj (built.symm.trans (build_of_isModuleName f named)))
  refine ⟨named, c, d, built, verilog, vhdl, ?_, ?_⟩
  · rw [describes.wires_eq, same]
    decide +kernel
  · rw [describes.drivers_eq, same]
    decide +kernel

end SwitchingLogic
