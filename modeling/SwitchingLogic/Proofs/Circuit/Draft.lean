import SwitchingLogic.Proofs.Circuit.Simulation
import SwitchingLogic.Proofs.VarSet.Members

/-!
# Building a netlist

While the gates of a tree are added, every gate has its place as its number and reads gates in
front of it, and the table of sources names exactly the sources that are there.  The gate that is
returned for a tree has the value of the tree and lies one level below its height, whichever of its
sources were there before.
-/

namespace SwitchingLogic

namespace Expr

def notCount : Expr → Nat
  | .var _ | .const _ => 0
  | .not e => e.notCount + 1
  | .binary _ l r => l.notCount + r.notCount

def binaryCount (op : Connective) : Expr → Nat
  | .var _ | .const _ => 0
  | .not e => e.binaryCount op
  | .binary op' l r => l.binaryCount op + r.binaryCount op + if op' = op then 1 else 0

end Expr

namespace Netlist.Draft

def netlist (d : Draft) : Netlist := ⟨d.gates⟩

/-- A draft in which every gate has its place as its number, reads gates in front of it and is not
yet the output, and in which the table of sources names the gates of the sources. -/
structure Valid (d : Draft) : Prop where
  id_eq : ∀ (place : Nat) (g : Gate), d.gates[place]? = some g → g.id = place
  operands_lt : ∀ (place : Nat) (g : Gate), d.gates[place]? = some g →
    ∀ a ∈ g.node.operands, a < place
  level_eq : ∀ (place : Nat) (g : Gate), d.gates[place]? = some g →
    g.node.isSource = true → g.level = 0
  not_output : ∀ (place : Nat) (g : Gate), d.gates[place]? = some g → g.node.isOutput = false
  lookup_iff : ∀ s id, d.sources.lookup s = some id ↔
    ∃ g, d.gates[id]? = some g ∧ g.node = .source s

theorem valid_empty : empty.Valid := by
  refine ⟨?_, ?_, ?_, ?_, fun s id => iff_of_false nofun ?_⟩
  · rintro place g found
    cases found
  · rintro place g found
    cases found
  · rintro place g found
    cases found
  · rintro place g found
    cases found
  · rintro ⟨g, found, _⟩
    cases found

/-! ## One more gate -/

theorem forall_push {gates : Array Gate} {g : Gate} {p : Nat → Gate → Prop}
    (old : ∀ (place : Nat) (h : Gate), gates[place]? = some h → p place h) (new : p gates.size g)
    (place : Nat) (h : Gate) (found : (gates.push g)[place]? = some h) : p place h := by
  rw [Array.getElem?_push] at found
  split at found
  · rename_i last
    cases found
    exact last ▸ new
  · exact old place h found

/-- A gate put behind all others keeps a draft valid if the table learns of it. -/
theorem Valid.push {d : Draft} (valid : d.Valid) {node : Node} {level : Nat}
    {sources : List (Source × Nat)} (operands : ∀ a ∈ node.operands, a < d.gates.size)
    (ground : node.isSource = true → level = 0) (inner : node.isOutput = false)
    (table : ∀ s id, sources.lookup s = some id ↔
      d.sources.lookup s = some id ∨ id = d.gates.size ∧ node = .source s) :
    Valid ⟨d.gates.push ⟨d.gates.size, node, level⟩, sources⟩ := by
  refine ⟨forall_push valid.id_eq rfl, forall_push valid.operands_lt operands,
    forall_push valid.level_eq ground, forall_push valid.not_output inner, fun s id => ?_⟩
  rw [table, valid.lookup_iff, Array.getElem?_push]
  by_cases last : id = d.gates.size
  · simp [last]
  · simp [last]

theorem getElem?_add (d : Draft) (node : Node) :
    (d.add node).2.gates[d.gates.size]? = some ⟨d.gates.size, node, d.nextLevel node⟩ := by
  rw [add, Array.getElem?_push, if_pos rfl]

theorem begins_add (d : Draft) (node : Node) : d.netlist.Begins (d.add node).2.netlist := by
  rw [Begins, netlist, netlist, add, Array.toList_push]
  exact List.prefix_append _ _

theorem count_add (d : Draft) (node : Node) (sort : Node → Bool) :
    (d.add node).2.netlist.count sort = d.netlist.count sort + if sort node then 1 else 0 := by
  rw [count, count, netlist, netlist, add, Array.countP_push]

theorem depth_add (d : Draft) (node : Node) :
    (d.add node).2.netlist.depth =
      if node.isLogic then max d.netlist.depth (d.nextLevel node) else d.netlist.depth := by
  rw [depth, depth, netlist, netlist, add, Array.foldl_push]

theorem depth_add_of_isLogic (d : Draft) {node : Node} (logic : node.isLogic = true) :
    (d.add node).2.netlist.depth = max d.netlist.depth (d.nextLevel node) := by
  rw [depth_add, if_pos logic]

/-- A gate that computes something keeps a draft valid. -/
theorem Valid.add {d : Draft} (valid : d.Valid) {node : Node} (logic : node.isLogic = true)
    (operands : ∀ a ∈ node.operands, a < d.gates.size) : (d.add node).2.Valid := by
  have ground : node.isSource = false := by cases node <;> first | rfl | cases logic
  have inner : node.isOutput = false := by cases node <;> first | rfl | cases logic
  refine valid.push operands (fun source => ?_) inner fun s id => ?_
  · rw [ground] at source
    cases source
  · refine (or_iff_left ?_).symm
    rintro ⟨_, rfl⟩
    cases ground

/-! ## One source -/

variable {d : Draft}

theorem addSource_of_found {s : Source} {id : Nat} (found : d.sources.lookup s = some id) :
    d.addSource s = (id, d) := by
  rw [addSource, found]

theorem addSource_of_new {s : Source} (new : d.sources.lookup s = none) :
    d.addSource s =
      (d.gates.size, ⟨(d.add (.source s)).2.gates, (s, d.gates.size) :: d.sources⟩) := by
  rw [addSource, new]
  rfl

theorem lookup_cons_eq_some_iff {s t : Source} {id size : Nat} {sources : List (Source × Nat)}
    (new : sources.lookup s = none) :
    ((s, size) :: sources).lookup t = some id ↔
      sources.lookup t = some id ∨ id = size ∧ Node.source s = .source t := by
  rw [List.lookup_cons]
  by_cases same : t = s
  · subst same
    simp [new, eq_comm]
  · rw [beq_eq_false_iff_ne.mpr same]
    simp [Ne.symm same]

theorem Valid.addSource (valid : d.Valid) (s : Source) : (d.addSource s).2.Valid := by
  cases known : d.sources.lookup s with
  | some id =>
      rw [addSource_of_found known]
      exact valid
  | none =>
      rw [addSource_of_new known]
      exact valid.push nofun (fun _ => rfl) rfl fun t id => lookup_cons_eq_some_iff known

theorem begins_addSource (d : Draft) (s : Source) :
    d.netlist.Begins (d.addSource s).2.netlist := by
  cases known : d.sources.lookup s with
  | some id =>
      rw [addSource_of_found known]
      exact List.prefix_refl _
  | none =>
      rw [addSource_of_new known]
      exact begins_add d (.source s)

theorem lookup_addSource (d : Draft) (s : Source) :
    (d.addSource s).2.sources.lookup s = some (d.addSource s).1 := by
  cases known : d.sources.lookup s with
  | some id =>
      rw [addSource_of_found known]
      exact known
  | none =>
      rw [addSource_of_new known]
      exact List.lookup_cons_self

/-- Sources do not count among the gates that compute something. -/
theorem count_addSource (d : Draft) (s : Source) {sort : Node → Bool}
    (other : sort (.source s) = false) :
    (d.addSource s).2.netlist.count sort = d.netlist.count sort := by
  cases known : d.sources.lookup s with
  | some id => rw [addSource_of_found known]
  | none =>
      rw [addSource_of_new known]
      exact (count_add d (.source s) sort).trans (by rw [other]; rfl)

theorem depth_addSource (d : Draft) (s : Source) :
    (d.addSource s).2.netlist.depth = d.netlist.depth := by
  cases known : d.sources.lookup s with
  | some id => rw [addSource_of_found known]
  | none =>
      rw [addSource_of_new known]
      exact depth_add d (.source s)

/-! ## A whole tree -/

theorem levelOf_of_begins {d' : Draft} (begins : d.netlist.Begins d'.netlist) {id : Nat}
    (inside : id < d.gates.size) : d'.levelOf id = d.levelOf id := by
  have same : d'.gates[id]? = d.gates[id]? := begins.getElem?_gates inside
  rw [levelOf, levelOf]
  exact congrArg (fun g : Option Gate => (g.map Gate.level).getD 0) same

/-- Adding a tree to a draft leads to a gate in a larger draft: the gate has the value of the tree,
and the inner nodes of the tree have become gates. -/
structure Adds (d : Draft) (e : Expr) (id : Nat) (d' : Draft) : Prop where
  valid : d'.Valid
  begins : d.netlist.Begins d'.netlist
  inside : id < d'.gates.size
  value : ∀ s, (d'.netlist.simulate s).getD id false = e.eval s
  level : d'.levelOf id + 1 = e.depth
  depth : d'.netlist.depth = max d.netlist.depth (e.depth - 1)
  nots : d'.netlist.count Node.isNot = d.netlist.count Node.isNot + e.notCount
  binaries : ∀ op, d'.netlist.count (Node.isBinary op) =
    d.netlist.count (Node.isBinary op) + e.binaryCount op
  /-- No input is added if there is one for every variable. -/
  inputs : (∀ v, e.vars.contains v = true → ∃ id, d.sources.lookup (.input v) = some id) →
    ∀ v id, d'.sources.lookup (.input v) = some id → d.sources.lookup (.input v) = some id

theorem adds_source (valid : d.Valid) {e : Expr} {s : Source}
    (value : ∀ state values, (Node.source s).eval state values = e.eval state)
    (depth : e.depth = 1) (nots : e.notCount = 0) (binaries : ∀ op, e.binaryCount op = 0)
    (used : ∀ v, s = .input v → e.vars.contains v = true) :
    Adds d e (d.addSource s).1 (d.addSource s).2 := by
  have next := valid.addSource s
  obtain ⟨g, found, source⟩ := (next.lookup_iff s _).mp (lookup_addSource d s)
  obtain ⟨inside, _⟩ := Array.getElem?_eq_some_iff.mp found
  refine ⟨next, begins_addSource d s, inside, fun state => ?_, ?_, ?_, ?_, fun op => ?_, ?_⟩
  · have computed := getD_simulate (n := (d.addSource s).2.netlist) found
      (next.operands_lt _ _ found) state
    rw [source] at computed
    rw [computed, value]
  · have ground := next.level_eq _ _ found (by rw [source]; rfl)
    rw [levelOf, found, Option.map_some, Option.getD_some, ground, depth]
  · rw [depth_addSource, depth, Nat.sub_self, Nat.max_zero]
  · rw [count_addSource d s rfl, nots, Nat.add_zero]
  · rw [count_addSource d s rfl, binaries, Nat.add_zero]
  · intro known v id listed
    cases here : d.sources.lookup s with
    | some old =>
        rw [addSource_of_found here] at listed
        exact listed
    | none =>
        rw [addSource_of_new here, lookup_cons_eq_some_iff here] at listed
        obtain old | ⟨_, same⟩ := listed
        · exact old
        · obtain ⟨id', present⟩ := known v (used v (Node.source.inj same))
          rw [← Node.source.inj same, here] at present
          cases present

/-- The gate of a negation reads the gate of the operand. -/
theorem Adds.not {e : Expr} {a : Nat} {d' : Draft} (operand : Adds d e a d') :
    Adds d (.not e) d'.gates.size (d'.add (.not a)).2 := by
  have inside : ∀ b ∈ (Node.not a).operands, b < d'.gates.size := by
    intro b member
    exact List.mem_singleton.mp member ▸ operand.inside
  have next := operand.valid.add rfl inside
  have begins := begins_add d' (.not a)
  have found := getElem?_add d' (.not a)
  have level : d'.nextLevel (.not a) = e.depth := by
    have below := operand.level
    simpa [nextLevel, Node.isSource, Node.operands] using below
  refine ⟨next, operand.begins.trans begins, ?_, fun s => ?_, ?_, ?_, ?_, fun op => ?_,
    operand.inputs⟩
  · exact (Array.getElem?_eq_some_iff.mp found).1
  · have computed := getD_simulate (n := (d'.add (.not a)).2.netlist) found
      (next.operands_lt _ _ found) s
    have kept := begins.getD_simulate s operand.inside
    exact computed.trans (congrArg (!·) (kept.trans (operand.value s)))
  · rw [levelOf, found, Option.map_some, Option.getD_some, level]
    rfl
  · rw [depth_add_of_isLogic d' rfl, level, operand.depth, Expr.depth, Nat.add_sub_cancel]
    omega
  · rw [count_add, operand.nots]
    rfl
  · rw [count_add, operand.binaries]
    rfl

theorem Adds.known {e : Expr} {id : Nat} {d' : Draft} (adds : Adds d e id d') (valid : d.Valid)
    {s : Source} {source : Nat} (listed : d.sources.lookup s = some source) :
    d'.sources.lookup s = some source := by
  obtain ⟨g, found, here⟩ := (valid.lookup_iff s source).mp listed
  obtain ⟨inside, _⟩ := Array.getElem?_eq_some_iff.mp found
  have same := adds.begins.getElem?_gates inside
  exact (adds.valid.lookup_iff s source).mpr ⟨g, same.trans found, here⟩

/-- The gate of a connective reads the gates of both sides, of which the second one may have reused
sources of the first. -/
theorem Adds.binary (valid : d.Valid) {op : Connective} {l r : Expr} {a b : Nat} {d' d'' : Draft}
    (left : Adds d l a d') (right : Adds d' r b d'') :
    Adds d (.binary op l r) d''.gates.size (d''.add (.binary op a b)).2 := by
  have size : d'.gates.size ≤ d''.gates.size := right.begins.length_le
  have inside : ∀ c ∈ (Node.binary op a b).operands, c < d''.gates.size := by
    intro c member
    obtain rfl | member := List.mem_cons.mp member
    · exact lt_of_lt_of_le left.inside size
    · exact List.mem_singleton.mp member ▸ right.inside
  have next := right.valid.add rfl inside
  have begins := begins_add d'' (.binary op a b)
  have found := getElem?_add d'' (.binary op a b)
  have level : d''.nextLevel (.binary op a b) = max l.depth r.depth := by
    have first := left.level
    rw [← levelOf_of_begins right.begins left.inside] at first
    rw [nextLevel, if_neg (by simp [Node.isSource]), Node.operands, ← first, ← right.level]
    simp only [List.map_cons, List.map_nil, List.foldl_cons, List.foldl_nil, Nat.zero_max]
    omega
  refine ⟨next, (left.begins.trans right.begins).trans begins, ?_, fun s => ?_, ?_, ?_, ?_,
    fun op' => ?_, fun known => ?_⟩
  · exact (Array.getElem?_eq_some_iff.mp found).1
  · have computed := getD_simulate (n := (d''.add (.binary op a b)).2.netlist) found
      (next.operands_lt _ _ found) s
    have first := (Begins.trans right.begins begins).getD_simulate s left.inside
    have second := begins.getD_simulate s right.inside
    exact computed.trans (congrArg₂ op.eval (first.trans (left.value s))
      (second.trans (right.value s)))
  · rw [levelOf, found, Option.map_some, Option.getD_some, level]
    rfl
  · rw [depth_add_of_isLogic d'' rfl, level, right.depth, left.depth, Expr.depth,
      Nat.add_sub_cancel]
    omega
  · rw [count_add, right.nots, left.nots, Expr.notCount, ← Nat.add_assoc]
    rfl
  · rw [count_add, right.binaries, left.binaries, Expr.binaryCount, Node.isBinary]
    simp only [beq_iff_eq]
    omega
  · have leftKnown (v : Variable) (used : l.vars.contains v = true) :
        ∃ id, d.sources.lookup (.input v) = some id :=
      known v (by rw [Expr.vars, VarSet.contains_union, used, Bool.true_or])
    have rightKnown (v : Variable) (used : r.vars.contains v = true) :
        ∃ id, d'.sources.lookup (.input v) = some id := by
      obtain ⟨id, listed⟩ := known v (by rw [Expr.vars, VarSet.contains_union, used, Bool.or_true])
      exact ⟨id, left.known valid listed⟩
    intro v id listed
    exact left.inputs leftKnown v id (right.inputs rightKnown v id listed)

theorem adds_addExpr (valid : d.Valid) (e : Expr) :
    Adds d e (d.addExpr e).1 (d.addExpr e).2 := by
  induction e generalizing d with
  | var v =>
      refine adds_source valid (fun _ _ => rfl) rfl rfl (fun _ => rfl) ?_
      rintro w same
      cases same
      rw [Expr.vars, VarSet.contains_singleton, decide_eq_true rfl]
  | const value => exact adds_source valid (fun _ _ => rfl) rfl rfl (fun _ => rfl) nofun
  | not e ih => exact (ih valid).not
  | binary op l r ihl ihr => exact (ihl valid).binary valid (ihr (ihl valid).valid)

end Netlist.Draft

end SwitchingLogic
