import SwitchingLogic.Proofs.Circuit.Netlist
import SwitchingLogic.Proofs.Satisfaction.Partial
import SwitchingLogic.Proofs.Term.Values

/-!
# Locality

Two states that agree on the variables that a function mentions give it the same value.  A tree, a
term and a constraint read their own variables only.  A netlist reads the variables of its inputs:
two simulations of it go on alike from gate to gate, and a circuit has inputs for the variables of
its formula and for no others.
-/

namespace SwitchingLogic

def State.Agree (vs : VarSet) (s t : State) : Prop :=
  ∀ v, vs.contains v = true → s.isActive v = t.isActive v

/-- The value of a function depends on its variables only. -/
def LogicFunction.IsLocal {α : Type} [LogicFunction α] (f : α) : Prop :=
  ∀ s t : State, State.Agree (vars f) s t → eval f s = eval f t

variable {s t : State}

/-- Two states give the same value to a gate if it is an input. -/
def Node.AgreeOn (node : Node) (s t : State) : Prop :=
  ∀ v, node = .source (.input v) → s.isActive v = t.isActive v

/-- From the same values in front of it a gate computes the same value. -/
theorem Node.eval_local {node : Node} (agree : node.AgreeOn s t) (values : Array Bool) :
    node.eval s values = node.eval t values := by
  cases node with
  | source source =>
      cases source with
      | input v => exact agree v rfl
      | constant b => rfl
  | not a => rfl
  | binary op a b => rfl
  | output a => rfl

namespace Netlist

theorem foldl_local {gates : List Gate} (agree : ∀ g ∈ gates, g.node.AgreeOn s t)
    (values : Array Bool) :
    gates.foldl (fun values g => values.push (g.node.eval s values)) values =
      gates.foldl (fun values g => values.push (g.node.eval t values)) values := by
  induction gates generalizing values with
  | nil => rfl
  | cons g rest ih =>
      obtain ⟨first, later⟩ := List.forall_mem_cons.mp agree
      rw [List.foldl_cons, List.foldl_cons, Node.eval_local first values]
      exact ih later _

/-- States that agree on the inputs of a netlist give the same values to all of its gates. -/
theorem simulate_local {n : Netlist} (agree : ∀ g ∈ n.gates, g.node.AgreeOn s t) :
    n.simulate s = n.simulate t := by
  rw [simulate_eq_foldl, simulate_eq_foldl]
  exact foldl_local (fun g member => agree g (Array.mem_toList_iff.mp member)) #[]

/-- The inputs of the netlist of an expression are variables of the expression. -/
theorem Realizes.contains_of_input {n : Netlist} {e : Expr} (realizes : n.Realizes e) {g : Gate}
    (member : g ∈ n.gates) {v : Variable} (input : g.node = .source (.input v)) :
    e.vars.contains v = true := by
  have listed : g ∈ n.gates.toList := Array.mem_toList_iff.mpr member
  rw [← List.take_append_drop e.vars.size n.gates.toList, List.mem_append] at listed
  rcases listed with front | behind
  · have named := List.mem_map_of_mem (f := Gate.node) front
    rw [realizes.inputs, input] at named
    obtain ⟨w, used, same⟩ := List.mem_map.mp named
    cases same
    exact VarSet.mem_toList.mp used
  · have other := realizes.others g behind
    rw [input] at other
    cases other

theorem Realizes.simulate_congr {n : Netlist} {e : Expr} (realizes : n.Realizes e)
    (agree : State.Agree e.vars s t) : n.simulate s = n.simulate t :=
  simulate_local fun _ member v input => agree v (realizes.contains_of_input member input)

end Netlist

namespace Circuit

theorem realizes_of_build {f : Formula} {o : Options} {c : Circuit} (built : build f o = .ok c) :
    c.netlist.Realizes f.expr ∧ c.vars = f.vars := by
  obtain ⟨done, named, _⟩ := Error.bind_eq_ok_iff.mp built
  rw [build_of_isModuleName f ((checkModuleName_eq_ok_iff _ done).mp named)] at built
  cases built
  exact ⟨Netlist.realizes_ofExpr f.expr, rfl⟩

/-- A circuit reports the variables of its formula. -/
theorem vars_of_build {f : Formula} {o : Options} {c : Circuit} (built : build f o = .ok c) :
    LogicFunction.vars c = f.expr.vars := by
  refine VarSet.ext_contains fun v => ?_
  change (VarSet.ofList c.vars).contains v = f.expr.vars.contains v
  rw [(realizes_of_build built).2, VarSet.contains_ofList, Formula.vars, Bool.eq_iff_iff,
    decide_eq_true_eq, VarSet.mem_toList]

/-- In states that agree on the reported variables all gates of a circuit have the same values,
also when inputs and constants are read back from their inscriptions. -/
theorem simulate_congr {f : Formula} {o : Options} {c : Circuit} (built : build f o = .ok c)
    (agree : State.Agree (LogicFunction.vars c) s t) :
    c.simulate s = c.simulate t ∧ c.netlist.run? s = c.netlist.run? t := by
  have realizes := (realizes_of_build built).1
  rw [vars_of_build built] at agree
  have same := realizes.simulate_congr agree
  exact ⟨same, by rw [realizes.run, realizes.run, same]⟩

theorem isLocal_of_build {f : Formula} {o : Options} {c : Circuit} (built : build f o = .ok c) :
    LogicFunction.IsLocal c := by
  intro s t agree
  have same : c.netlist.simulate s = c.netlist.simulate t := (simulate_congr built agree).1
  change (c.netlist.simulate s).back?.getD false = (c.netlist.simulate t).back?.getD false
  rw [same]

end Circuit

/-- Trees, terms, constraints and circuits are local, and so is each gate of a circuit. -/
theorem LogicFunction.evaluation_local :
    (∀ e : Expr, IsLocal e) ∧ (∀ term : Term, IsLocal term) ∧ (∀ c : Constraint, IsLocal c) ∧
      ∀ (f : Formula) (o : Circuit.Options) (c : Circuit), Circuit.build f o = .ok c →
        IsLocal c ∧ ∀ s t : State, State.Agree (vars c) s t →
          c.simulate s = c.simulate t ∧ c.netlist.run? s = c.netlist.run? t := by
  refine ⟨fun e s t agree => e.eval_congr agree,
    fun term s t agree => term.containsState_congr agree,
    fun c s t agree => c.eval_congr agree,
    fun f o c built => ⟨Circuit.isLocal_of_build built, ?_⟩⟩
  exact fun s t agree => Circuit.simulate_congr built agree

/-- No circuit sees a variable that its formula does not mention. -/
theorem LogicFunction.evaluation_local_unseen :
    let e : Expr := .binary .and (.var ⟨0⟩) (.not (.var ⟨1⟩))
    ∃ c, Circuit.build (.ofExpr e) .default = .ok c ∧
      State.Agree (vars c) .allFalse (State.allFalse.activate ⟨2⟩) ∧
      eval c .allFalse = eval c (State.allFalse.activate ⟨2⟩) := by
  intro e
  have named : Circuit.isModuleName Circuit.Options.default.moduleName.toList = true := by decide
  have built := Circuit.build_of_isModuleName (.ofExpr e) named
  have agree :
      State.Agree (Formula.ofExpr e).expr.vars .allFalse (State.allFalse.activate ⟨2⟩) := by
    intro v used
    have unseen : (⟨2⟩ : Variable) ≠ v := by
      rintro rfl
      revert used
      decide
    rw [State.isActive_activate, decide_eq_false unseen, Bool.or_false]
  rw [← Circuit.vars_of_build built] at agree
  exact ⟨_, built, agree, (evaluation_local.2.2.2 _ _ _ built).1 _ _ agree⟩

end SwitchingLogic
