import SwitchingLogic.Proofs.Expr.Leaves
import SwitchingLogic.Proofs.Formula.Parse
import SwitchingLogic.Proofs.Formula.Trees

/-!
# Leaves of parsed formulas

Reading a formula neither loses nor invents anything.  The letters and digits of the text are the
leaves of the tree, in the same order, and each `!` and each `'` is one negation; parentheses and
the signs between operands only decide how the tree is put together.  The sizes of the tree can
therefore be counted in the text.
-/

namespace SwitchingLogic

namespace Variable

/-- The order of variables is that of their letters. -/
theorem pairwise_letters : (all.map letter).Pairwise (· < ·) := by decide +kernel

end Variable

namespace Expr

/-- The variables of a tree are those whose letters stand at its leaves. -/
theorem contains_vars_iff_leaves (e : Expr) (v : Variable) :
    e.vars.contains v = true ↔ v.letter ∈ e.leaves := by
  induction e with
  | var w =>
      rw [vars, VarSet.contains_singleton, decide_eq_true_eq, leaves, List.mem_singleton,
        Variable.letter_injective.eq_iff, eq_comm]
  | const b =>
      obtain ⟨_, _, one, zero⟩ := v.letter_spec
      rw [vars, VarSet.contains_empty, leaves, List.mem_singleton]
      cases b with
      | false => exact iff_of_false Bool.false_ne_true zero
      | true => exact iff_of_false Bool.false_ne_true one
  | not e ih => exact ih
  | binary op l r ihl ihr =>
      rw [vars, VarSet.contains_union, Bool.or_eq_true, ihl, ihr, leaves, List.mem_append]

end Expr

namespace Phrase

open Formula

def marks (s : List Char) : Nat := s.count '\x27' + s.count '!'

theorem marks_append (s t : List Char) : marks (s ++ t) = marks s + marks t := by
  simp only [marks, List.count_append]
  omega

/-- The trees have the letters and digits of the text as leaves, and its signs as negations. -/
structure Keeps (s : List Char) (es : List Expr) : Prop where
  leaves : s.filter isLeafChar = es.flatMap Expr.leaves
  negations : marks s = Expr.total Expr.negations es

variable {s t : List Char} {es fs : List Expr} {e : Expr}

theorem Keeps.append (front : Keeps s es) (back : Keeps t fs) : Keeps (s ++ t) (es ++ fs) where
  leaves := by rw [List.filter_append, front.leaves, back.leaves, List.flatMap_append]
  negations := by rw [marks_append, front.negations, back.negations, Expr.total_append]

/-- A sign that is no operand and does not negate leaves nothing in the tree. -/
theorem keeps_sign {c : Char} (other : isLeafChar c = false) (silent : marks [c] = 0) :
    Keeps [c] [] where
  leaves := by rw [List.filter_cons, other]; rfl
  negations := silent

theorem keeps_leaf {c : Char} (leaf : isLeafChar c = true) (leaves : e.leaves = [c])
    (plain : e.negations = 0) : Keeps [c] [e] where
  leaves := by
    rw [List.filter_cons, leaf, List.flatMap_singleton, leaves]
    rfl
  negations := by
    have prime : c ≠ '\x27' := ne_of_isLeafChar leaf (by decide)
    have bang : c ≠ '!' := ne_of_isLeafChar leaf (by decide)
    rw [Expr.total_singleton, plain, marks, List.count_singleton, List.count_singleton,
      beq_false_of_ne prime, beq_false_of_ne bang]
    rfl

theorem Keeps.join (kept : Keeps s es) (op : Connective) (some' : es ≠ []) :
    Keeps s [Expr.join op es] where
  leaves := by rw [List.flatMap_singleton, Expr.leaves_join op some', kept.leaves]
  negations := by
    rw [Expr.total_singleton, (Expr.addsUp_negations op).total_join some', kept.negations]

/-- A sign on either side of the operand is one negation. -/
theorem Keeps.not (kept : Keeps s [e]) (other : t.filter isLeafChar = s.filter isLeafChar)
    (one : marks t = marks s + 1) : Keeps t [.not e] where
  leaves := other.trans kept.leaves
  negations := by rw [one, kept.negations, Expr.total_singleton, Expr.total_singleton]; rfl

theorem Keeps.bang (kept : Keeps s [e]) : Keeps ('!' :: s) [.not e] :=
  kept.not rfl (by rw [← List.singleton_append, marks_append, Nat.add_comm]; rfl)

theorem Keeps.prime (kept : Keeps s [e]) : Keeps (s ++ ['\x27']) [.not e] :=
  kept.not (by rw [List.filter_append]; exact List.append_nil _) (marks_append s ['\x27'])

theorem Keeps.bangs (kept : Keeps s [e]) (n : Nat) :
    Keeps (List.replicate n '!' ++ s) [n.repeat .not e] := by
  induction n with
  | zero => exact kept
  | succ n ih => exact ih.bang

theorem Sum.trees_ne_nil (q : Sum) : q.trees ≠ [] := by
  cases q with
  | one p => exact List.cons_ne_nil _ _
  | plus q p => exact List.append_ne_nil_of_right_ne_nil _ (List.cons_ne_nil _ _)

theorem Product.trees_ne_nil (p : Product) : p.trees ≠ [] := by
  cases p with
  | one f => exact List.cons_ne_nil _ _
  | times p dot f => exact List.append_ne_nil_of_right_ne_nil _ (List.cons_ne_nil _ _)

mutual

theorem keeps_sum (q : Sum) : Keeps q.text q.trees := by
  match q with
  | .one p => exact (keeps_product p).join .and p.trees_ne_nil
  | .plus q p =>
      have last := (keeps_product p).join .and p.trees_ne_nil
      exact (keeps_sum q).append ((keeps_sign (c := '+') rfl rfl).append last)

theorem keeps_product (p : Product) : Keeps p.text p.trees := by
  match p with
  | .one (.mk bangs o) => exact keeps_factor bangs o
  | .times p dot (.mk bangs o) =>
      have front : Keeps (p.text ++ if dot then ['·'] else []) (p.trees ++ []) := by
        cases dot with
        | true => exact (keeps_product p).append (keeps_sign rfl rfl)
        | false => exact (keeps_product p).append ⟨rfl, rfl⟩
      rw [List.append_nil] at front
      exact front.append (keeps_factor bangs o)

theorem keeps_factor (bangs : Nat) (o : Operand) :
    Keeps (Factor.mk bangs o).text [(Factor.mk bangs o).tree] :=
  (keeps_operand o).bangs bangs

theorem keeps_operand (o : Operand) : Keeps o.text [o.tree] := by
  match o with
  | .letter v => exact keeps_leaf (by simp [isLeafChar, v.letter_spec.1]) rfl rfl
  | .digit b => exact keeps_leaf (by cases b <;> rfl) rfl rfl
  | .group q =>
      have inner := (keeps_sum q).join .or q.trees_ne_nil
      have closed := inner.append (keeps_sign (c := ')') rfl rfl)
      exact (keeps_sign (c := '(') rfl rfl).append closed
  | .complement o => exact (keeps_operand o).prime

end

end Phrase

namespace Formula

open Phrase

/-- The tree that is read keeps what stands in the normalized text. -/
theorem keeps_parse {source : String} {f : Formula} (parsed : parse source = .ok f) :
    f.normalized.toList = normalize source.toList ∧ Keeps f.normalized.toList [f.expr] := by
  obtain ⟨q, l, spells, loaded, rfl⟩ := exists_load_of_parse parsed
  rw [String.toList_ofList, Sum.expr_load loaded]
  exact ⟨spells, (keeps_sum q).join .or q.trees_ne_nil⟩

/-- A letter of the text names a variable of the tree, and nothing else does. -/
theorem mem_letters_iff {f : Formula} (kept : Keeps f.normalized.toList [f.expr]) (c : Char) :
    c ∈ f.vars.map Variable.letter ↔ c ∈ f.normalized.toList ∧ c.isAlpha = true := by
  have leaves : f.expr.leaves = f.normalized.toList.filter isLeafChar := by
    rw [kept.leaves, List.flatMap_singleton]
  have member (v : Variable) : v ∈ f.vars ↔ v.letter ∈ f.normalized.toList := by
    rw [vars, VarSet.mem_toList, Expr.contains_vars_iff_leaves, leaves, List.mem_filter]
    exact and_iff_left (by simp [isLeafChar, v.letter_spec.1])
  rw [List.mem_map]
  constructor
  · rintro ⟨v, inside, rfl⟩
    exact ⟨(member v).mp inside, v.letter_spec.1⟩
  · rintro ⟨inside, alpha⟩
    rw [← Variable.isSome_ofLetter?] at alpha
    obtain ⟨v, found⟩ := Option.isSome_iff_exists.mp alpha
    have letter := Variable.letter_of_ofLetter? found
    exact ⟨v, (member v).mpr (letter ▸ inside), letter⟩

/-- The leaves of a parsed formula are the letters and digits of its text, its negations are the
signs that negate, and its variables are the letters, in order.  The sizes follow from these. -/
theorem leaves_parse (source : String) (f : Formula) (parsed : parse source = .ok f) :
    let s := f.normalized.toList
    let size := f.expr.leaves.length
    s = normalize source.toList ∧
      f.expr.leaves = s.filter isLeafChar ∧ f.expr.negations = marks s ∧
      (f.vars.map Variable.letter).Pairwise (· < ·) ∧
      (∀ c, c ∈ f.vars.map Variable.letter ↔ c ∈ s ∧ c.isAlpha = true) ∧
      0 < size ∧ f.metrics.operatorCount = size - 1 + marks s ∧
      f.metrics.complexity = 2 * size - 1 + marks s := by
  intro s size
  obtain ⟨text, kept⟩ := keeps_parse parsed
  have leaves : f.expr.leaves = s.filter isLeafChar := by rw [kept.leaves, List.flatMap_singleton]
  have negations : f.expr.negations = marks s := kept.negations.symm
  have sorted : (f.vars.map Variable.letter).Pairwise (· < ·) :=
    Variable.pairwise_letters.sublist (List.filter_sublist.map _)
  have positive : 0 < size := f.expr.length_leaves_pos
  have operators : f.metrics.operatorCount = size - 1 + marks s := by
    have count := f.expr.operatorCount_add_one
    rw [negations] at count
    change f.expr.operatorCount = _
    omega
  have nodes : f.metrics.complexity = 2 * size - 1 + marks s := by
    have count := f.expr.complexity_eq
    change f.expr.operatorCount = _ at operators
    change f.expr.complexity = _
    omega
  exact ⟨text, leaves, negations, sorted, mem_letters_iff kept, positive, operators, nodes⟩

theorem leaves_parse_nested :
    let source := "NOT (a OR B') AND 1b!!a"
    ∃ f, parse source = .ok f ∧ f.normalized.toList = "!(a+B')·1ba''".toList ∧
      f.expr.leaves = "aB1ba".toList ∧ f.expr.negations = 4 ∧
      f.metrics.operatorCount = 8 ∧ f.metrics.complexity = 13 := by
  intro source
  have text : normalize source.toList = "!(a+B')·1ba''".toList := by decide +kernel
  have read : (parse source).isOk = true := by decide +kernel
  cases parsed : parse source with
  | error failure =>
      rw [parsed] at read
      cases read
  | ok f =>
      obtain ⟨normalized, leaves, negations, _, _, _, operators, nodes⟩ :=
        leaves_parse source f parsed
      rw [normalized, text] at leaves negations operators nodes
      rw [leaves] at operators nodes
      exact ⟨f, rfl, normalized.trans text, leaves, negations, operators, nodes⟩

end Formula

end SwitchingLogic
