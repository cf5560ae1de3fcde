import SwitchingLogic.Formula.Basic
import SwitchingLogic.Proofs.Error.Results
import SwitchingLogic.Proofs.Expr.Balance

/-!
# Trees of phrases

A phrase has a tree, whether or not its height is within bounds: chains are joined from the trees of
their parts, from left to right, and every negation is kept.  Loading a phrase gives this tree or
fails.  Conversely, the balanced form of a tree is the tree of a phrase, and so are its parts.
-/

namespace SwitchingLogic

namespace Phrase

mutual

def Sum.trees : Sum → List Expr
  | .one p => [Expr.join .and p.trees]
  | .plus q p => q.trees ++ [Expr.join .and p.trees]

def Product.trees : Product → List Expr
  | .one f => [f.tree]
  | .times p _ f => p.trees ++ [f.tree]

def Factor.tree : Factor → Expr
  | .mk bangs o => bangs.repeat .not o.tree

def Operand.tree : Operand → Expr
  | .letter v => .var v
  | .digit b => .const b
  | .group q => Expr.join .or q.trees
  | .complement o => .not o.tree

end

theorem expr_join {op : Connective} {c : Chain} {l : Loaded} (joined : c.join op = .ok l) :
    l.expr = Expr.join op c.operands.reverse := by
  obtain ⟨depth, _, made⟩ := Error.bind_eq_ok_iff.mp joined
  rw [← Error.pure_eq_ok_iff.mp made]

mutual

theorem trees_chain_sum {q : Sum} {c : Chain} (built : q.chain = .ok c) :
    c.operands.reverse = q.trees := by
  match q with
  | .one p =>
      obtain ⟨d, factors, later⟩ := Error.bind_eq_ok_iff.mp built
      obtain ⟨l, joined, made⟩ := Error.bind_eq_ok_iff.mp later
      rw [← Error.pure_eq_ok_iff.mp made, Sum.trees, ← trees_chain_product factors,
        ← expr_join joined]
      rfl
  | .plus q p =>
      obtain ⟨front, products, later⟩ := Error.bind_eq_ok_iff.mp built
      obtain ⟨d, factors, later⟩ := Error.bind_eq_ok_iff.mp later
      obtain ⟨l, joined, made⟩ := Error.bind_eq_ok_iff.mp later
      rw [← Error.pure_eq_ok_iff.mp made, Sum.trees, ← trees_chain_product factors,
        ← expr_join joined, ← trees_chain_sum products, Chain.push, List.reverse_cons]

theorem trees_chain_product {p : Product} {c : Chain} (built : p.chain = .ok c) :
    c.operands.reverse = p.trees := by
  match p with
  | .one (.mk bangs o) =>
      obtain ⟨l, loaded, made⟩ := Error.bind_eq_ok_iff.mp built
      rw [← Error.pure_eq_ok_iff.mp made, Product.trees, ← tree_load_factor loaded]
      rfl
  | .times p dot (.mk bangs o) =>
      obtain ⟨front, factors, later⟩ := Error.bind_eq_ok_iff.mp built
      obtain ⟨l, loaded, made⟩ := Error.bind_eq_ok_iff.mp later
      rw [← Error.pure_eq_ok_iff.mp made, Product.trees, ← tree_load_factor loaded,
        ← trees_chain_product factors, Chain.push, List.reverse_cons]

theorem tree_load_factor {bangs : Nat} {o : Operand} {l : Loaded}
    (loaded : (Factor.mk bangs o).load = .ok l) : l.expr = (Factor.mk bangs o).tree := by
  obtain ⟨inner, operand, later⟩ := Error.bind_eq_ok_iff.mp loaded
  obtain ⟨depth, _, made⟩ := Error.bind_eq_ok_iff.mp later
  rw [← Error.pure_eq_ok_iff.mp made, Factor.tree, tree_load_operand operand]

theorem tree_load_operand {o : Operand} {l : Loaded} (loaded : o.load = .ok l) :
    l.expr = o.tree := by
  match o with
  | .letter v => rw [← Error.pure_eq_ok_iff.mp loaded, Operand.tree]
  | .digit b => rw [← Error.pure_eq_ok_iff.mp loaded, Operand.tree]
  | .group q =>
      obtain ⟨c, products, joined⟩ := Error.bind_eq_ok_iff.mp loaded
      rw [expr_join joined, trees_chain_sum products, Operand.tree]
  | .complement o =>
      obtain ⟨inner, operand, later⟩ := Error.bind_eq_ok_iff.mp loaded
      obtain ⟨depth, _, made⟩ := Error.bind_eq_ok_iff.mp later
      rw [← Error.pure_eq_ok_iff.mp made, tree_load_operand operand, Operand.tree]

end

/-- The tree that is loaded, if its height allows it. -/
theorem Sum.expr_load {q : Sum} {l : Loaded} (loaded : q.load = .ok l) :
    l.expr = Expr.join .or q.trees := by
  obtain ⟨c, products, joined⟩ := Error.bind_eq_ok_iff.mp loaded
  rw [expr_join joined, trees_chain_sum products]

def Product.append (p : Product) : Product → Product
  | .one f => .times p false f
  | .times q dot f => .times (p.append q) dot f

def Sum.append (q : Sum) : Sum → Sum
  | .one p => .plus q p
  | .plus r p => .plus (q.append r) p

theorem Product.text_append (p q : Product) : (p.append q).text = p.text ++ q.text := by
  cases q with
  | one f => simp [append, text]
  | times q dot f => simp [append, text, text_append p q]

theorem Product.trees_append (p q : Product) : (p.append q).trees = p.trees ++ q.trees := by
  cases q with
  | one f => rfl
  | times q dot f => rw [append, trees, trees, trees_append p q, List.append_assoc]

theorem Sum.text_append (q r : Sum) : (q.append r).text = q.text ++ '+' :: r.text := by
  cases r with
  | one p => simp [append, text]
  | plus r p => simp [append, text, text_append q r]

theorem Sum.trees_append (q r : Sum) : (q.append r).trees = q.trees ++ r.trees := by
  cases r with
  | one p => rfl
  | plus r p => rw [append, trees, trees, trees_append q r, List.append_assoc]

end Phrase

namespace Expr

open Phrase

/-- The phrases of a tree, by their texts: a factor where it is negated, a product where it stands
below a product, and a sum elsewhere.  What they load is the balanced tree, or its operands. -/
structure Phrased (e : Expr) (negated below alone : List Char) : Prop where
  factor : ∃ f : Factor, f.text = negated ∧ f.tree = e.balance
  product : ∃ p : Product, p.text = below ∧ p.trees = (e.operands .and).map balance
  sum : ∃ q : Sum, q.text = alone ∧ q.trees = (e.operands .or).map balance

variable {l r : Expr} {text : List Char}

theorem Phrased.of_atomic {e : Expr} (atomic : e.isAtomic = true) {f : Factor}
    (spells : f.text = text) (tree : f.tree = e.balance) : e.Phrased text text text := by
  have chain (op : Connective) : (e.operands op).map balance = [f.tree] := by
    rw [tree]
    cases e with
    | binary op' l r => cases atomic
    | _ => rfl
  have single : (Sum.one (.one f)).trees = [f.tree] := by rw [Sum.trees, Product.trees, join]
  exact {
    factor := ⟨f, spells, tree⟩
    product := ⟨.one f, spells, (chain .and).symm⟩
    sum := ⟨.one (.one f), spells, single.trans (chain .or).symm⟩ }

theorem Phrased.of_product {p : Product} (spells : p.text = text)
    (trees : p.trees = ((binary .and l r).operands .and).map balance) :
    (binary .and l r).Phrased (grouped true text) text text := by
  have tree : (Sum.one p).trees = [(binary .and l r).balance] := by
    rw [Sum.trees, trees, join_map_balance]
  have whole : (Factor.mk 0 (.group (.one p))).tree = (binary .and l r).balance := by
    rw [Factor.tree, Operand.tree, tree, join]
    rfl
  exact {
    factor := ⟨.mk 0 (.group (.one p)), congrArg (grouped true) spells, whole⟩
    product := ⟨p, spells, trees⟩
    sum := ⟨.one p, spells, tree⟩ }

theorem Phrased.of_sum {q : Sum} (spells : q.text = text)
    (trees : q.trees = ((binary .or l r).operands .or).map balance) :
    (binary .or l r).Phrased (grouped true text) (grouped true text) text := by
  have tree : join .or q.trees = (binary .or l r).balance := by rw [trees, join_map_balance]
  have group : (Factor.mk 0 (.group q)).text = grouped true text := congrArg (grouped true) spells
  exact {
    factor := ⟨.mk 0 (.group q), group, tree⟩
    product := ⟨.one (.mk 0 (.group q)), group, congrArg (fun e => [e]) tree⟩
    sum := ⟨q, spells, trees⟩ }

/-- Without a leading `!` a factor is an operand. -/
theorem Phrased.exists_operand {e : Expr} {negated below alone : List Char}
    (phrased : e.Phrased negated below alone) (plain : '!' ∉ negated) :
    ∃ o : Operand, o.text = negated ∧ o.tree = e.balance := by
  obtain ⟨⟨bangs, o⟩, rfl, tree⟩ := phrased.factor
  cases bangs with
  | zero => exact ⟨o, rfl, tree⟩
  | succ n => exact absurd List.mem_cons_self plain

end Expr

end SwitchingLogic
