import SwitchingLogic.Proofs.Expr.Values

/-!
# Balanced chains

A chain of a connective may be written as a tree of any shape; what counts is the list of its
operands.  Balancing a tree joins each of its chains anew, from the same operands in the same order,
and leaves negations and leaves as they are.  The value does not change.
-/

namespace SwitchingLogic.Expr

theorem operandsOnto_eq (op : Connective) (e : Expr) (rest : List Expr) :
    e.operandsOnto op rest = e.operands op ++ rest := by
  induction e generalizing rest with
  | var v => rfl
  | const b => rfl
  | not e _ => rfl
  | binary op' l r ihl ihr =>
      rw [operands, operandsOnto, operandsOnto]
      split
      · rw [ihl, ihl (r.operandsOnto op []), ihr, ihr [], List.append_nil, List.append_assoc]
      · rfl

theorem operands_binary (op : Connective) (l r : Expr) :
    (binary op l r).operands op = l.operands op ++ r.operands op := by
  rw [operands, operandsOnto, if_pos rfl, operandsOnto_eq]
  rfl

/-- A tree without the connective at its root is a chain of its own. -/
theorem operands_eq_singleton {op : Connective} {e : Expr} (other : e.connective? ≠ some op) :
    e.operands op = [e] := by
  cases e with
  | var v => rfl
  | const b => rfl
  | not e => rfl
  | binary op' l r => exact if_neg fun same => other (congrArg some same)

/-- A tree is a chain of the connective, put together from two trees, or has another root. -/
@[elab_as_elim]
theorem chain_induction (op : Connective) {motive : Expr → Prop}
    (other : ∀ e : Expr, e.connective? ≠ some op → motive e)
    (chain : ∀ l r, motive l → motive r → motive (.binary op l r)) (e : Expr) : motive e := by
  induction e with
  | var v => exact other _ fun root => nomatch root
  | const b => exact other _ fun root => nomatch root
  | not e _ => exact other _ fun root => nomatch root
  | binary op' l r ihl ihr =>
      by_cases same : op' = op
      · subst same
        exact chain l r ihl ihr
      · exact other _ fun root => same (Option.some.inj root)

theorem operands_ne_nil (op : Connective) (e : Expr) : e.operands op ≠ [] := by
  induction e using chain_induction op with
  | other e root =>
      rw [operands_eq_singleton root]
      exact List.cons_ne_nil e []
  | chain l r ihl ihr =>
      rw [operands_binary]
      exact List.append_ne_nil_of_left_ne_nil ihl _

/-- What a chain is made of has another root than the chain. -/
theorem connective?_ne_of_mem_operands {op : Connective} {e f : Expr}
    (member : f ∈ e.operands op) : f.connective? ≠ some op := by
  induction e using chain_induction op with
  | other e root =>
      rw [operands_eq_singleton root] at member
      exact List.mem_singleton.mp member ▸ root
  | chain l r ihl ihr =>
      rw [operands_binary, List.mem_append] at member
      exact member.elim ihl ihr

/-- A list is joined from two parts of it that are joined already. -/
theorem join_induction (op : Connective) {motive : List Expr → Expr → Prop}
    (single : ∀ e, motive [e] e)
    (halves : ∀ front back, front ≠ [] → back ≠ [] → motive front (join op front) →
      motive back (join op back) →
        motive (front ++ back) (.binary op (join op front) (join op back)))
    {es : List Expr} (some' : es ≠ []) : motive es (join op es) := by
  induction es using join.induct with
  | case1 => exact absurd rfl some'
  | case2 e =>
      rw [join]
      exact single e
  | case3 e f rest all half ihFront ihBack =>
      have front : all.take half ≠ [] := by simp [all, half]
      have back : all.drop half ≠ [] := by simp [all, half]; omega
      have whole := halves _ _ front back (ihFront front) (ihBack back)
      rw [List.take_append_drop] at whole
      rw [join]
      exact whole

/-- A join has the operands of its parts, in order. -/
theorem operands_join (op : Connective) {es : List Expr} (some' : es ≠ []) :
    (join op es).operands op = es.flatMap (operands op) := by
  refine join_induction op (motive := fun es tree => tree.operands op = es.flatMap (operands op))
    (fun e => ?_) (fun front back _ _ ihFront ihBack => ?_) some'
  · rw [List.flatMap_singleton]
  · rw [operands_binary, ihFront, ihBack, List.flatMap_append]

theorem connective?_join (op : Connective) {es : List Expr} (several : 2 ≤ es.length) :
    (join op es).connective? = some op := by
  match es with
  | [] => cases several
  | [e] => simp at several
  | e :: f :: rest =>
      rw [join]
      rfl

theorem complexity_le_of_mem_operands {op : Connective} {e f : Expr} (member : f ∈ e.operands op) :
    f.complexity ≤ e.complexity := by
  induction e using chain_induction op with
  | other e root =>
      rw [operands_eq_singleton root] at member
      exact (congrArg complexity (List.mem_singleton.mp member)).le
  | chain l r ihl ihr =>
      rw [operands_binary, List.mem_append] at member
      rw [complexity]
      obtain front | back := member
      · exact (ihl front).trans (by omega)
      · exact (ihr back).trans (by omega)

theorem complexity_lt_of_mem_operands {op : Connective} {l r f : Expr}
    (member : f ∈ (binary op l r).operands op) :
    f.complexity < (binary op l r).complexity := by
  rw [operands_binary, List.mem_append] at member
  rw [complexity]
  obtain front | back := member
  · have := complexity_le_of_mem_operands front
    omega
  · have := complexity_le_of_mem_operands back
    omega

/-- The tree with every chain joined anew. -/
def balance : Expr → Expr
  | .var v => .var v
  | .const b => .const b
  | .not e => .not e.balance
  | .binary op l r =>
      join op (((binary op l r).operands op).attach.map fun ⟨f, _⟩ => f.balance)
termination_by e => e.complexity
decreasing_by
  · exact Nat.lt_succ_self _
  · exact complexity_lt_of_mem_operands ‹_›

@[simp]
theorem balance_var (v : Variable) : (var v).balance = var v := by rw [balance]

@[simp]
theorem balance_const (b : Bool) : (const b).balance = const b := by rw [balance]

@[simp]
theorem balance_not (e : Expr) : (Expr.not e).balance = .not e.balance := by rw [balance]

theorem balance_binary (op : Connective) (l r : Expr) :
    (binary op l r).balance = join op (((binary op l r).operands op).map balance) := by
  rw [balance, List.map_attach_eq_pmap, List.pmap_eq_map]

/-- A tree is joined from its operands, be it a chain of the connective or not. -/
theorem join_map_balance (op : Connective) (e : Expr) :
    join op ((e.operands op).map balance) = e.balance := by
  by_cases root : e.connective? = some op
  · cases e with
    | binary op' l r =>
        cases root
        exact (balance_binary op l r).symm
    | _ => cases root
  · rw [operands_eq_singleton root, List.map_singleton, join]

theorem eval_balance (e : Expr) (s : State) : e.balance.eval s = e.eval s := by
  induction e using balance.induct with
  | case1 v => rw [balance_var]
  | case2 b => rw [balance_const]
  | case3 e ih => rw [balance_not, eval, eval, ih]
  | case4 op l r ih =>
      have same (f : Expr) (member : f ∈ (binary op l r).operands op) :
          f.balance.eval s = f.eval s := ih f member
      refine op.eq_of_eq_annihilator_iff ?_
      rw [balance_binary, eval_join_iff, ← decided_operands]
      simp only [Connective.Decided, List.mem_map, exists_exists_and_eq_and]
      exact exists_congr fun f => and_congr_right fun member => by rw [same f member]

end SwitchingLogic.Expr
