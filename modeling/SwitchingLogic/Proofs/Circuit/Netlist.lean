import SwitchingLogic.Circuit.Basic
import SwitchingLogic.Proofs.Circuit.Draft
import SwitchingLogic.Proofs.Error.Results

/-!
# Netlists of expressions

The netlist of an expression begins with its variables, ends with its only output, and has one gate
for each inner node of the tree in between.  Computed from first to last, the gates have a value in
every state, and the last one is the value of the expression.
-/

namespace SwitchingLogic

namespace Netlist

namespace Draft

variable {d : Draft}

theorem valid_addInputs (valid : d.Valid) (vs : List Variable) : (d.addInputs vs).Valid :=
  List.foldlRecOn vs _ valid fun _ valid v _ => valid.addSource (.input v)

/-- Inputs do not count among the gates that compute something. -/
theorem count_addInputs (d : Draft) (vs : List Variable) {sort : Node → Bool}
    (other : ∀ s, sort (.source s) = false) :
    (d.addInputs vs).netlist.count sort = d.netlist.count sort :=
  List.foldlRecOn (motive := fun d' : Draft => d'.netlist.count sort = d.netlist.count sort) vs _
    rfl fun d' same v _ => (count_addSource d' (.input v) (other _)).trans same

theorem depth_addInputs (d : Draft) (vs : List Variable) :
    (d.addInputs vs).netlist.depth = d.netlist.depth :=
  List.foldlRecOn (motive := fun d' : Draft => d'.netlist.depth = d.netlist.depth) vs _
    rfl fun d' same v _ => (depth_addSource d' (.input v)).trans same

/-- Variables without an input get one each, in their order. -/
theorem nodes_addInputs {vs : List Variable} (nodup : vs.Nodup)
    (new : ∀ v ∈ vs, d.sources.lookup (.input v) = none) :
    (d.addInputs vs).gates.toList.map Gate.node =
      d.gates.toList.map Gate.node ++ vs.map fun v => .source (.input v) := by
  induction vs generalizing d with
  | nil => rw [List.map_nil, List.append_nil]; rfl
  | cons v rest ih =>
      obtain ⟨fresh, nodup⟩ := List.nodup_cons.mp nodup
      have first := new v List.mem_cons_self
      have later : ∀ w ∈ rest, (d.addSource (.input v)).2.sources.lookup (.input w) = none := by
        intro w listed
        rw [addSource_of_new first, List.lookup_cons, beq_eq_false_iff_ne.mpr]
        · exact new w (List.mem_cons_of_mem v listed)
        · rintro same
          cases same
          exact fresh listed
      have rest := ih nodup later
      rw [addSource_of_new first, add, Array.toList_push, List.map_append, List.append_assoc]
        at rest
      rw [addInputs, List.foldl_cons, addSource_of_new first]
      exact rest

def ofVars (e : Expr) : Draft := empty.addInputs e.vars.toList

variable (e : Expr)

theorem valid_ofVars : (ofVars e).Valid := valid_addInputs valid_empty _

theorem nodes_ofVars :
    (ofVars e).gates.toList.map Gate.node = e.vars.toList.map fun v => .source (.input v) :=
  nodes_addInputs e.vars.nodup_toList fun _ _ => rfl

theorem size_ofVars : (ofVars e).gates.size = e.vars.size := by
  have same := congrArg List.length (nodes_ofVars e)
  rwa [List.length_map, List.length_map] at same

theorem count_ofVars {sort : Node → Bool} (other : ∀ s, sort (.source s) = false) :
    (ofVars e).netlist.count sort = 0 :=
  count_addInputs empty _ other

theorem depth_ofVars : (ofVars e).netlist.depth = 0 :=
  depth_addInputs empty _

theorem exists_lookup_ofVars {v : Variable} (used : e.vars.contains v = true) :
    ∃ id, (ofVars e).sources.lookup (.input v) = some id := by
  have listed : .source (.input v) ∈ (ofVars e).gates.toList.map Gate.node := by
    rw [nodes_ofVars]
    exact List.mem_map.mpr ⟨v, VarSet.mem_toList.mpr used, rfl⟩
  obtain ⟨g, member, source⟩ := List.mem_map.mp listed
  obtain ⟨id, found⟩ := List.mem_iff_getElem?.mp member
  rw [Array.getElem?_toList] at found
  exact ⟨id, ((valid_ofVars e).lookup_iff _ id).mpr ⟨g, found, source⟩⟩

/-- The draft of the netlist before the output is added, with the gate of the whole tree. -/
theorem adds_ofVars : Adds (ofVars e) e ((ofVars e).addExpr e).1 ((ofVars e).addExpr e).2 :=
  adds_addExpr (valid_ofVars e) e

/-- No gate of the tree is a further input. -/
theorem isInput_of_size_le {g : Gate} {place : Nat}
    (found : ((ofVars e).addExpr e).2.gates[place]? = some g) (behind : e.vars.size ≤ place) :
    g.node.isInput = false := by
  have adds := adds_ofVars e
  match source : g.node with
  | .source (.input v) =>
      have listed := (adds.valid.lookup_iff _ place).mpr ⟨g, found, source⟩
      have before := adds.inputs (fun w used => exists_lookup_ofVars e used) v place listed
      obtain ⟨_, there, _⟩ := ((valid_ofVars e).lookup_iff _ place).mp before
      obtain ⟨inside, _⟩ := Array.getElem?_eq_some_iff.mp there
      rw [size_ofVars] at inside
      exact absurd behind (Nat.not_le.mpr inside)
  | .source (.constant _) | .not _ | .binary _ _ _ | .output _ => rfl

/-! ## The output -/

def finish (d : Draft) (root : Nat) : Netlist := (d.add (.output root)).2.netlist

variable {root : Nat}

theorem forall_gates_finish {p : Nat → Gate → Prop}
    (old : ∀ (place : Nat) (g : Gate), d.gates[place]? = some g → p place g)
    (new : p d.gates.size ⟨d.gates.size, .output root, d.nextLevel (.output root)⟩)
    (place : Nat) (g : Gate) (found : (d.finish root).gates[place]? = some g) : p place g :=
  forall_push old new place g found

theorem Valid.id_eq_finish (valid : d.Valid) (place : Nat) (g : Gate)
    (found : (d.finish root).gates[place]? = some g) : g.id = place :=
  forall_gates_finish valid.id_eq rfl place g found

theorem Valid.operands_lt_finish (valid : d.Valid) (inside : root < d.gates.size) (place : Nat)
    (g : Gate) (found : (d.finish root).gates[place]? = some g) :
    ∀ a ∈ g.node.operands, a < place :=
  forall_gates_finish valid.operands_lt (fun _ member => List.mem_singleton.mp member ▸ inside)
    place g found

/-- The output is no source, so the table of sources still names all of them. -/
theorem Valid.lookup_of_source_finish (valid : d.Valid) {place : Nat} {g : Gate} {s : Source}
    (found : (d.finish root).gates[place]? = some g) (source : g.node = .source s) :
    d.sources.lookup s = some place := by
  revert source
  refine forall_gates_finish (p := fun place g => g.node = .source s →
    d.sources.lookup s = some place) (fun place g found source => ?_) nofun place g found
  exact (valid.lookup_iff s place).mpr ⟨g, found, source⟩

theorem Valid.count_output_finish (valid : d.Valid) :
    (d.finish root).count Node.isOutput = 1 := by
  have none : d.netlist.count Node.isOutput = 0 := by
    rw [count, Array.countP_eq_zero]
    intro g member
    obtain ⟨place, inside, rfl⟩ := Array.mem_iff_getElem.mp member
    rw [valid.not_output place _ (Array.getElem?_eq_getElem inside)]
    exact Bool.false_ne_true
  rw [finish, count_add, none]
  rfl

theorem back?_gates_finish (d : Draft) (root : Nat) : (d.finish root).gates.back? =
    some ⟨d.gates.size, .output root, d.nextLevel (.output root)⟩ :=
  Array.back?_push

/-- The output has the value of the gate that it reads. -/
theorem back?_simulate_finish (d : Draft) (root : Nat) (s : State) :
    ((d.finish root).simulate s).back? = some ((d.netlist.simulate s).getD root false) := by
  rw [finish, netlist, add, simulate_push, Array.back?_push]
  rfl

end Draft

theorem ofExpr_eq_finish (e : Expr) : ofExpr e =
    ((Draft.ofVars e).addExpr e).2.finish ((Draft.ofVars e).addExpr e).1 :=
  rfl

/-- Where every gate has its place as its number, the wires lead to these places. -/
theorem connections_eq_flatMap {n : Netlist}
    (id_eq : ∀ (place : Nat) (g : Gate), n.gates[place]? = some g → g.id = place) :
    n.connections = n.gates.toList.zipIdx.flatMap fun (g, place) =>
      g.node.operands.map fun a => ⟨a, place⟩ := by
  rw [connections]
  conv_lhs => rw [← List.zipIdx_map_fst 0 n.gates.toList]
  rw [List.flatMap_map]
  refine List.flatMap_congr fun ⟨g, place⟩ member => ?_
  rw [List.mk_mem_zipIdx_iff_getElem?, Array.getElem?_toList] at member
  rw [Gate.connections, id_eq place g member]

/-- A netlist realizes an expression: its gates stand in an order in which they can be computed,
from one input per variable to a single output; it has the inner nodes of the tree as gates; and
it has the value of the expression in every state. -/
structure Realizes (n : Netlist) (e : Expr) : Prop where
  id_eq : ∀ (place : Nat) (g : Gate), n.gates[place]? = some g → g.id = place
  operands_lt : ∀ (place : Nat) (g : Gate), n.gates[place]? = some g →
    ∀ a ∈ g.node.operands, a < place
  inputs : (n.gates.toList.take e.vars.size).map Gate.node =
    e.vars.toList.map fun v => .source (.input v)
  others : ∀ g ∈ n.gates.toList.drop e.vars.size, g.node.isInput = false
  sources : ∀ g ∈ n.gates, ∀ h ∈ n.gates, ∀ s, g.node = .source s → h.node = .source s → g = h
  outputs : n.count Node.isOutput = 1
  last : ∃ g, n.gates.back? = some g ∧ g.node.isOutput = true
  nots : n.count Node.isNot = e.notCount
  binaries : ∀ op, n.count (Node.isBinary op) = e.binaryCount op
  depth : n.depth = e.depth - 1
  connections_eq : n.connections = n.gates.toList.zipIdx.flatMap fun (g, place) =>
    g.node.operands.map fun a => ⟨a, place⟩
  run : ∀ s, n.run? s = some (n.simulate s)
  value : ∀ s, (n.simulate s).back? = some (e.eval s)

theorem realizes_ofExpr (e : Expr) : (ofExpr e).Realizes e := by
  have adds := Draft.adds_ofVars e
  have base := Draft.size_ofVars e
  have nodes := Draft.nodes_ofVars e
  have behind (place : Nat) (g : Gate) := @Draft.isInput_of_size_le e g place
  rw [ofExpr_eq_finish]
  generalize ((Draft.ofVars e).addExpr e).1 = root at adds
  generalize ((Draft.ofVars e).addExpr e).2 = body at adds behind
  have valid := adds.valid
  have begins : (Draft.ofVars e).netlist.Begins (body.finish root) :=
    adds.begins.trans (Draft.begins_add body _)
  refine {
    id_eq := valid.id_eq_finish
    operands_lt := valid.operands_lt_finish adds.inside
    inputs := ?_
    others := ?_
    sources := ?_
    outputs := valid.count_output_finish
    last := ⟨_, Draft.back?_gates_finish body root, rfl⟩
    nots := ?_
    binaries := fun op => ?_
    depth := ?_
    connections_eq := connections_eq_flatMap valid.id_eq_finish
    run := run?_eq_some (valid.operands_lt_finish adds.inside)
    value := fun s => (Draft.back?_simulate_finish body root s).trans
      (congrArg some (adds.value s)) }
  · have front := List.prefix_iff_eq_take.mp begins
    rw [← base, ← nodes]
    exact congrArg (List.map Gate.node) front.symm
  · intro g member
    obtain ⟨place, found⟩ := List.mem_iff_getElem?.mp member
    rw [List.getElem?_drop, Array.getElem?_toList] at found
    exact Draft.forall_gates_finish (p := fun place g => e.vars.size ≤ place →
      g.node.isInput = false) behind (fun _ => rfl) _ g found (Nat.le_add_right _ _)
  · intro g first h second s source source'
    obtain ⟨place, found⟩ := Array.mem_iff_getElem?.mp first
    obtain ⟨place', found'⟩ := Array.mem_iff_getElem?.mp second
    have here := valid.lookup_of_source_finish found source
    rw [valid.lookup_of_source_finish found' source'] at here
    rw [Option.some.inj here, found] at found'
    exact Option.some.inj found'
  · rw [Draft.finish, Draft.count_add, adds.nots, Draft.count_ofVars e fun _ => rfl]
    exact Nat.zero_add _
  · rw [Draft.finish, Draft.count_add, adds.binaries, Draft.count_ofVars e fun _ => rfl]
    exact Nat.zero_add _
  · rw [Draft.finish, Draft.depth_add, adds.depth, Draft.depth_ofVars]
    exact Nat.zero_max _

/-- The last gate gives the value of the expression. -/
theorem Realizes.eval_eq {n : Netlist} {e : Expr} (realizes : n.Realizes e) (s : State) :
    n.eval s = e.eval s := by
  rw [eval, realizes.value, Option.getD_some]

end Netlist

namespace Circuit

theorem checkModuleName_eq_ok_iff (name : String) (done : Unit) :
    checkModuleName name = .ok done ↔ isModuleName name.toList = true := by
  rw [checkModuleName]
  split
  · rename_i accepted
    exact iff_of_true rfl accepted
  · rename_i refused
    exact iff_of_false (fun run => nomatch run) refused

/-- Under an accepted name the circuit of a formula is made from the netlist of its tree. -/
theorem build_of_isModuleName (f : Formula) {o : Options}
    (named : isModuleName o.moduleName.toList = true) :
    build f o = .ok ⟨f.expr, f.vars, .ofExpr f.expr, o.layout.place (.ofExpr f.expr) o.spacing,
      Layout.bounds (o.layout.place (.ofExpr f.expr) o.spacing) o.spacing, o.moduleName⟩ :=
  Error.bind_eq_ok_iff.mpr ⟨(), (checkModuleName_eq_ok_iff _ _).mpr named, rfl⟩

/-- Under an accepted name every formula has a circuit.  Its netlist realizes the expression, and
the circuit is the same Boolean function. -/
theorem exists_build_realizes (f : Formula) (o : Options)
    (named : isModuleName o.moduleName.toList = true) :
    ∃ c, build f o = .ok c ∧ c.expr = f.expr ∧ c.vars = f.vars ∧ c.netlist.Realizes f.expr ∧
      ∀ s, LogicFunction.eval c s = f.expr.eval s := by
  have realizes := Netlist.realizes_ofExpr f.expr
  exact ⟨_, build_of_isModuleName f named, rfl, rfl, realizes, realizes.eval_eq⟩

theorem exists_build_realizes_shared :
    let f : Formula := ⟨"(A+1)(A'+1)", "(A+1)(A'+1)", .binary .and
      (.binary .or (.var ⟨0⟩) (.const true)) (.binary .or (.not (.var ⟨0⟩)) (.const true))⟩
    isModuleName Options.default.moduleName.toList = true ∧
      ∃ c, build f .default = .ok c ∧ c.netlist.count (Node.isBinary .or) = 2 ∧
        c.netlist.depth = 3 ∧ ∀ s, c.netlist.eval s = true := by
  intro f
  have named : isModuleName Options.default.moduleName.toList = true := by decide
  obtain ⟨c, built, _, _, realizes, value⟩ := exists_build_realizes f .default named
  refine ⟨named, c, built, realizes.binaries .or, realizes.depth, fun s => ?_⟩
  refine (value s).trans ?_
  exact (by decide : ∀ a, ((a || true) && (!a || true)) = true) (s.isActive ⟨0⟩)

end Circuit

end SwitchingLogic
