import SwitchingLogic.Proofs.Expr.Depth
import SwitchingLogic.Proofs.Expr.Width

/-!
# Joining and flattening

Joining a list of operands and flattening the chain undo each other.  The tree over a list has the
operands of its items, in order, the value of the connective over all of them, and, besides their
nodes, one node between each two.  Its height is that of the highest item and the logarithm of the
number of items, which is reached when all items have the same height.
-/

namespace SwitchingLogic.Expr

variable {op : Connective} {es : List Expr}

/-- Joining what has other roots and flattening the chain gives the list back. -/
theorem operands_join_of_roots (some' : es ≠ [])
    (roots : ∀ e ∈ es, e.connective? ≠ some op) : (join op es).operands op = es := by
  have single : es.flatMap (operands op) = es.flatMap fun e => [e] :=
    List.flatMap_congr fun e member => operands_eq_singleton (roots e member)
  rw [operands_join op some', single, List.flatMap_singleton']

/-- Flattening a chain and joining its operands anew keeps the operands. -/
theorem operands_join_operands (op : Connective) (e : Expr) :
    (join op (e.operands op)).operands op = e.operands op :=
  operands_join_of_roots (operands_ne_nil op e) fun _ member =>
    connective?_ne_of_mem_operands member

theorem eval_join (op : Connective) (es : List Expr) (s : State) :
    (join op es).eval s = (es.map (·.eval s)).foldr op.eval op.identity := by
  refine op.eq_of_eq_annihilator_iff ?_
  rw [eval_join_iff]
  induction es with
  | nil => exact iff_of_false (op.not_decided_nil s) op.identity_ne_annihilator
  | cons e rest ih =>
      rw [op.decided_cons, ih, List.map_cons, List.foldr_cons, op.eval_eq_annihilator_iff]

theorem total_nodes (es : List Expr) : total nodes es = total complexity es + es.length := by
  induction es with
  | nil => rfl
  | cons e rest ih =>
      rw [total_cons, ih, total_cons, nodes, List.length_cons]
      omega

theorem complexity_join (op : Connective) (some' : es ≠ []) :
    (join op es).complexity = total complexity es + (es.length - 1) := by
  have counted : (join op es).nodes = total nodes es := (addsUp_nodes op).total_join some'
  have several := List.length_pos_iff.mpr some'
  rw [nodes, total_nodes] at counted
  omega

def deepest : List Expr → Nat
  | [] => 0
  | e :: rest => max e.depth (deepest rest)

theorem depth_le_deepest {e : Expr} (member : e ∈ es) : e.depth ≤ deepest es := by
  induction member with
  | head rest => exact Nat.le_max_left _ _
  | tail f _ ih => exact ih.trans (Nat.le_max_right _ _)

/-- The front half is the larger one, so that its height alone accounts for all levels. -/
theorem le_depth_join (op : Connective) (some' : es ≠ []) {least : Nat}
    (bound : ∀ e ∈ es, least ≤ e.depth) : least + joinDepth es.length ≤ (join op es).depth := by
  induction es using join.induct with
  | case1 => exact absurd rfl some'
  | case2 e =>
      rw [join]
      exact bound e (List.mem_singleton.mpr rfl)
  | case3 e f rest all half ihFront _ =>
      have several : 2 ≤ all.length := by simp [all]
      have front : (all.take half).length = (all.length + 1) / 2 := by
        rw [List.length_take]
        omega
      have higher := ihFront (List.ne_nil_of_length_pos (by omega))
        fun g member => bound g (List.mem_of_mem_take member)
      have levels := joinDepth_half several
      rw [front] at higher
      rw [join, depth]
      change least + joinDepth all.length ≤
        max (join op (all.take half)).depth (join op (all.drop half)).depth + 1
      omega

/-- What a tree has from the expressions that it is joined from. -/
structure Joined (op : Connective) (es : List Expr) (tree : Expr) : Prop where
  operands_eq : tree.operands op = es.flatMap (operands op)
  eval_eq : ∀ s, tree.eval s = (es.map (·.eval s)).foldr op.eval op.identity
  complexity_eq : tree.complexity = total complexity es + (es.length - 1)
  depth_le : tree.depth ≤ deepest es + joinDepth es.length
  depth_eq : ∀ height, (∀ e ∈ es, e.depth = height) → tree.depth = height + joinDepth es.length

/-- The tree over a list is joined from it, nothing is joined to the neutral constant, and joining
the operands of a chain keeps them. -/
theorem join_exact (op : Connective) :
    (∀ es : List Expr, es ≠ [] → Joined op es (join op es)) ∧
      join op [] = .const op.identity ∧
      ∀ e : Expr, (join op (e.operands op)).operands op = e.operands op := by
  refine ⟨fun es some' => ?_, by rw [join], operands_join_operands op⟩
  constructor
  case operands_eq => exact operands_join op some'
  case eval_eq => exact eval_join op es
  case complexity_eq => exact complexity_join op some'
  case depth_le => exact depth_join_le op some' fun e => depth_le_deepest
  case depth_eq =>
    intro height same
    apply Nat.le_antisymm
    · exact depth_join_le op some' fun e member => (same e member).le
    · exact le_depth_join op some' fun e member => (same e member).ge

/-- A thousand leaves are joined to a tree with ten levels above them. -/
theorem depth_join_thousand_leaves :
    List.replicate 1000 (Expr.var ⟨0⟩) ≠ [] ∧
      (join .or (List.replicate 1000 (Expr.var ⟨0⟩))).depth = 11 := by
  have some' : List.replicate 1000 (Expr.var ⟨0⟩) ≠ [] :=
    List.ne_nil_of_length_eq_add_one List.length_replicate
  have leaves : ∀ e ∈ List.replicate 1000 (Expr.var ⟨0⟩), e.depth = 1 := by
    intro e member
    rw [List.eq_of_mem_replicate member]
    rfl
  have levels : joinDepth 1000 = 10 := by decide +kernel
  refine ⟨some', ?_⟩
  rw [((join_exact .or).1 _ some').depth_eq 1 leaves, List.length_replicate, levels]

end SwitchingLogic.Expr
