import SwitchingLogic.Proofs.Expr.Depth
import SwitchingLogic.Proofs.Formula.Programming

/-!
# Heights of parsed formulas

While a formula is loaded its height is tracked from below: a negation adds one, and a chain adds
the levels of its balanced tree to the highest of its operands.  This module lists all trees that
are made on the way, in the order in which they are made, with the heights tracked for them.  None
of them is higher than its tracked height, and the formula is refused exactly if one of the tracked
heights is too great; the first of these is reported.
-/

namespace SwitchingLogic

namespace Phrase

/-! ## What is tracked -/

def Chain.joined (op : Connective) (c : Chain) : Loaded :=
  ⟨Expr.join op c.operands.reverse, c.deepest + Expr.joinDepth c.operands.length⟩

def Loaded.negated (l : Loaded) (n : Nat) : Loaded := ⟨n.repeat .not l.expr, l.depth + n⟩

mutual

def Sum.tracked : Sum → Chain
  | .one p => .single (p.tracked.joined .and)
  | .plus q p => q.tracked.push (p.tracked.joined .and)

def Product.tracked : Product → Chain
  | .one f => .single f.tracked
  | .times p _ f => p.tracked.push f.tracked

def Factor.tracked : Factor → Loaded
  | .mk bangs o => o.tracked.negated bangs

def Operand.tracked : Operand → Loaded
  | .letter v => ⟨.var v, 1⟩
  | .digit b => ⟨.const b, 1⟩
  | .group q => q.tracked.joined .or
  | .complement o => o.tracked.negated 1

end

mutual

def Sum.parts : Sum → List Loaded
  | .one p => p.parts ++ [p.tracked.joined .and]
  | .plus q p => q.parts ++ (p.parts ++ [p.tracked.joined .and])

def Product.parts : Product → List Loaded
  | .one f => f.parts
  | .times p _ f => p.parts ++ f.parts

def Factor.parts : Factor → List Loaded
  | .mk bangs o => o.parts ++ [o.tracked.negated bangs]

def Operand.parts : Operand → List Loaded
  | .letter v => [⟨.var v, 1⟩]
  | .digit b => [⟨.const b, 1⟩]
  | .group q => q.parts ++ [q.tracked.joined .or]
  | .complement o => o.parts ++ [o.tracked.negated 1]

end

/-! ## The checks -/

def Loaded.isTooHigh (l : Loaded) : Bool := maxDepth < l.depth

/-- The result, unless a tree that was made on the way is too high; the first of these is
reported. -/
def checked {α : Type} (parts : List Loaded) (result : α) : Except Error α :=
  match parts.find? Loaded.isTooHigh with
  | some l => .error (.tooComplex .expressionDepth l.depth maxDepth)
  | none => .ok result

section Checked

variable {α β : Type} {parts later : List Loaded} {a : α}

theorem checked_bind {b : β} {next : α → Except Error β} (then' : next a = checked later b) :
    checked parts a >>= next = checked (parts ++ later) b := by
  rw [checked, checked, List.find?_append]
  cases parts.find? Loaded.isTooHigh with
  | some l => rfl
  | none => exact then'

theorem checked_map {first : Except Error α} (run : first = checked parts a) (g : α → β) :
    (first >>= fun x => pure (g x)) = checked parts (g a) := by
  have whole : (checked parts a >>= fun x => pure (g x)) = checked (parts ++ []) (g a) :=
    checked_bind rfl
  rw [run, whole, List.append_nil]

theorem checked_eq_ok_iff {b : α} :
    checked parts a = .ok b ↔ (∀ l ∈ parts, l.depth ≤ maxDepth) ∧ a = b := by
  rw [checked]
  cases found : parts.find? Loaded.isTooHigh with
  | some l =>
      have above : l.isTooHigh = true := List.find?_some found
      refine iff_of_false (fun run => nomatch run) fun both => ?_
      exact Nat.not_lt.mpr (both.1 l (List.mem_of_find?_eq_some found)) (of_decide_eq_true above)
  | none =>
      have within (l : Loaded) (made : l ∈ parts) : l.depth ≤ maxDepth := by
        have passes : ¬ l.isTooHigh = true := List.find?_eq_none.mp found l made
        exact Nat.not_lt.mp fun above => passes (decide_eq_true above)
      exact ⟨fun run => ⟨within, Except.ok.inj run⟩, fun both => congrArg Except.ok both.2⟩

theorem exists_of_checked_eq_error {e : Error} (failed : checked parts a = .error e) :
    ∃ l ∈ parts, maxDepth < l.depth ∧ e = .tooComplex .expressionDepth l.depth maxDepth := by
  rw [checked] at failed
  cases found : parts.find? Loaded.isTooHigh with
  | some l =>
      rw [found] at failed
      have above : l.isTooHigh = true := List.find?_some found
      exact ⟨l, List.mem_of_find?_eq_some found, of_decide_eq_true above,
        (Except.error.inj failed).symm⟩
  | none =>
      rw [found] at failed
      cases failed

end Checked

theorem checkDepth_eq (l : Loaded) :
    (checkDepth l.depth >>= fun depth => pure ⟨l.expr, depth⟩) = checked [l] l := by
  rw [checkDepth, checked, List.find?_singleton, Loaded.isTooHigh]
  by_cases above : maxDepth < l.depth
  · rw [if_pos above, decide_eq_true above]
    rfl
  · rw [if_neg above, decide_eq_false above]
    rfl

theorem join_eq (op : Connective) (c : Chain) : c.join op = checked [c.joined op] (c.joined op) :=
  checkDepth_eq (c.joined op)

mutual

theorem chain_sum_eq (q : Sum) : q.chain = checked q.parts q.tracked := by
  match q with
  | .one p =>
      rw [Sum.chain, chain_product_eq p]
      exact checked_bind (checked_map (join_eq .and _) Chain.single)
  | .plus q p =>
      rw [Sum.chain, chain_sum_eq q, chain_product_eq p]
      exact checked_bind (checked_bind (checked_map (join_eq .and _) q.tracked.push))

theorem chain_product_eq (p : Product) : p.chain = checked p.parts p.tracked := by
  match p with
  | .one (.mk bangs o) => exact checked_map (load_factor_eq bangs o) Chain.single
  | .times p dot (.mk bangs o) =>
      rw [Product.chain, chain_product_eq p]
      exact checked_bind (checked_map (load_factor_eq bangs o) p.tracked.push)

theorem load_factor_eq (bangs : Nat) (o : Operand) :
    (Factor.mk bangs o).load = checked (Factor.mk bangs o).parts (Factor.mk bangs o).tracked := by
  rw [Factor.load, load_operand_eq o]
  exact checked_bind (checkDepth_eq (o.tracked.negated bangs))

theorem load_operand_eq (o : Operand) : o.load = checked o.parts o.tracked := by
  match o with
  | .letter v => rfl
  | .digit b => rfl
  | .group q =>
      rw [Operand.load, chain_sum_eq q]
      exact checked_bind (join_eq .or _)
  | .complement o =>
      rw [Operand.load, load_operand_eq o]
      exact checked_bind (checkDepth_eq (o.tracked.negated 1))

end

/-! ## Tracked heights are bounds -/

/-- The last of the trees that were made, of which the others are subtrees; the tracked heights
bound them all. -/
structure Loaded.Tops (l : Loaded) (parts : List Loaded) : Prop where
  made : l ∈ parts
  bound : ∀ m ∈ parts, m.expr.depth ≤ m.depth
  below : ∀ m ∈ parts, m.expr.IsSubtree l.expr

/-- The operands that were made last, of which the other trees are subtrees; the tracked heights
bound them all. -/
structure Chain.Tops (c : Chain) (parts : List Loaded) : Prop where
  some' : c.operands ≠ []
  highest : ∀ e ∈ c.operands, e.depth ≤ c.deepest
  bound : ∀ m ∈ parts, m.expr.depth ≤ m.depth
  below : ∀ m ∈ parts, ∃ e ∈ c.operands, m.expr.IsSubtree e

section Tops

variable {l : Loaded} {c : Chain} {parts later : List Loaded}

theorem Loaded.tops_leaf (leaf : l.expr.depth ≤ l.depth) : l.Tops [l] where
  made := List.mem_singleton.mpr rfl
  bound := List.forall_mem_singleton.mpr leaf
  below := List.forall_mem_singleton.mpr .refl

theorem Loaded.Tops.negated (tops : l.Tops parts) (n : Nat) :
    (l.negated n).Tops (parts ++ [l.negated n]) where
  made := List.mem_append_right _ (List.mem_singleton.mpr rfl)
  bound := by
    have here := tops.bound l tops.made
    have whole : (l.negated n).expr.depth ≤ (l.negated n).depth := by
      rw [Loaded.negated, Expr.depth_repeat_not]
      exact Nat.add_le_add_right here n
    exact List.forall_mem_append.mpr ⟨tops.bound, List.forall_mem_singleton.mpr whole⟩
  below := by
    have inside (m : Loaded) (made : m ∈ parts) : m.expr.IsSubtree (l.negated n).expr :=
      (tops.below m made).trans (Expr.isSubtree_repeat_not n l.expr)
    exact List.forall_mem_append.mpr ⟨inside, List.forall_mem_singleton.mpr .refl⟩

theorem Loaded.Tops.single (tops : l.Tops parts) : (Chain.single l).Tops parts where
  some' := List.cons_ne_nil _ _
  highest := List.forall_mem_singleton.mpr (tops.bound l tops.made)
  bound := tops.bound
  below := fun m made => ⟨l.expr, List.mem_singleton.mpr rfl, tops.below m made⟩

theorem Chain.Tops.push (front : c.Tops parts) (last : l.Tops later) :
    (c.push l).Tops (parts ++ later) where
  some' := List.cons_ne_nil _ _
  highest := by
    refine List.forall_mem_cons.mpr ⟨?_, fun e member => ?_⟩
    · exact (last.bound l last.made).trans (Nat.le_max_right _ _)
    · exact (front.highest e member).trans (Nat.le_max_left _ _)
  bound := List.forall_mem_append.mpr ⟨front.bound, last.bound⟩
  below := by
    refine List.forall_mem_append.mpr ⟨fun m made => ?_, fun m made => ?_⟩
    · obtain ⟨e, member, inside⟩ := front.below m made
      exact ⟨e, List.mem_cons_of_mem _ member, inside⟩
    · exact ⟨l.expr, List.mem_cons_self, last.below m made⟩

theorem Chain.Tops.joined (tops : c.Tops parts) (op : Connective) :
    (c.joined op).Tops (parts ++ [c.joined op]) where
  made := List.mem_append_right _ (List.mem_singleton.mpr rfl)
  bound := by
    have whole := Expr.depth_join_le op (mt List.reverse_eq_nil_iff.mp tops.some')
      fun e member => tops.highest e (List.mem_reverse.mp member)
    rw [List.length_reverse] at whole
    exact List.forall_mem_append.mpr ⟨tops.bound, List.forall_mem_singleton.mpr whole⟩
  below := by
    refine List.forall_mem_append.mpr ⟨fun m made => ?_, List.forall_mem_singleton.mpr .refl⟩
    obtain ⟨e, member, inside⟩ := tops.below m made
    exact inside.trans (Expr.isSubtree_join op (List.mem_reverse.mpr member))

end Tops

mutual

theorem tops_sum (q : Sum) : q.tracked.Tops q.parts := by
  match q with
  | .one p => exact ((tops_product p).joined .and).single
  | .plus q p => exact (tops_sum q).push ((tops_product p).joined .and)

theorem tops_product (p : Product) : p.tracked.Tops p.parts := by
  match p with
  | .one (.mk bangs o) => exact (tops_factor bangs o).single
  | .times p dot (.mk bangs o) => exact (tops_product p).push (tops_factor bangs o)

theorem tops_factor (bangs : Nat) (o : Operand) :
    (Factor.mk bangs o).tracked.Tops (Factor.mk bangs o).parts :=
  (tops_operand o).negated bangs

theorem tops_operand (o : Operand) : o.tracked.Tops o.parts := by
  match o with
  | .letter v => exact Loaded.tops_leaf (Nat.le_refl 1)
  | .digit b => exact Loaded.tops_leaf (Nat.le_refl 1)
  | .group q => exact (tops_sum q).joined .or
  | .complement o => exact (tops_operand o).negated 1

end

/-- The tracked height bounds the tree, and it passes. -/
structure Loaded.Within (l : Loaded) : Prop where
  bound : l.expr.depth ≤ l.depth
  passes : l.depth ≤ maxDepth

theorem Loaded.Tops.within {l l' : Loaded} {parts : List Loaded} (tops : l.Tops parts)
    (run : checked parts l = .ok l') : l'.Within := by
  obtain ⟨within, rfl⟩ := checked_eq_ok_iff.mp run
  exact ⟨tops.bound l tops.made, within l tops.made⟩

def Sum.made (q : Sum) : List Loaded := (Operand.group q).parts

def Sum.whole (q : Sum) : Loaded := (Operand.group q).tracked

theorem Sum.load_eq (q : Sum) : q.load = checked q.made q.whole := load_operand_eq (.group q)

theorem Sum.tops (q : Sum) : q.whole.Tops q.made := tops_operand (.group q)

/-- Whatever is loaded is no higher than its tracked height, which has passed. -/
theorem within_load :
    (∀ (q : Sum) l, q.load = .ok l → l.Within) ∧
    (∀ (p : Product) l, (p.chain >>= Chain.join .and) = .ok l → l.Within) ∧
    (∀ (f : Factor) l, f.load = .ok l → l.Within) ∧
    (∀ (o : Operand) l, o.load = .ok l → l.Within) := by
  refine ⟨fun q l run => ?_, fun p l run => ?_, fun f l run => ?_, fun o l run => ?_⟩
  · rw [q.load_eq] at run
    exact q.tops.within run
  · rw [chain_product_eq p, checked_bind (join_eq .and _)] at run
    exact ((tops_product p).joined .and).within run
  · obtain ⟨bangs, o⟩ := f
    rw [load_factor_eq] at run
    exact (tops_factor bangs o).within run
  · rw [load_operand_eq] at run
    exact (tops_operand o).within run

end Phrase

namespace Formula

open Phrase

/-- The tree of a formula is never higher than the greatest height allowed, because the heights
tracked at all rules are bounds that have to pass.  A text without fault and of a size that is
allowed is refused only for a subtree whose tracked height does not pass. -/
theorem parse_tracked (source : String) :
    (∀ f, parse source = .ok f → f.metrics.depth ≤ maxDepth) ∧
    (∀ (q : Sum) l, q.load = .ok l → l.Within) ∧
    (∀ (p : Product) l, (p.chain >>= Chain.join .and) = .ok l → l.Within) ∧
    (∀ (f : Factor) l, f.load = .ok l → l.Within) ∧
    (∀ (o : Operand) l, o.load = .ok l → l.Within) ∧
    (fault? (normalize source.toList) = none → checkSize (normalize source.toList) = .ok () →
      ∃ q : Sum, q.text = normalize source.toList ∧ q.whole.Tops q.made ∧
        match parse source with
        | .ok f => f.expr = q.whole.expr ∧ ∀ l ∈ q.made, l.depth ≤ maxDepth
        | .error e => ∃ l ∈ q.made, maxDepth < l.depth ∧
            e = .tooComplex .expressionDepth l.depth maxDepth) := by
  obtain ⟨sums, products, factors, operands⟩ := within_load
  refine ⟨fun f parsed => ?_, sums, products, factors, operands, fun faultless small => ?_⟩
  · obtain ⟨q, l, _, loaded, rfl⟩ := exists_load_of_parse parsed
    have within := sums q l loaded
    exact within.bound.trans within.passes
  · obtain ⟨q, spells, run⟩ := exists_parse_eq faultless
    refine ⟨q, spells, q.tops, ?_⟩
    rw [small] at run
    have whole := run.trans (checked_map q.load_eq _)
    cases outcome : parse source with
    | ok f =>
        obtain ⟨within, rfl⟩ := checked_eq_ok_iff.mp (whole.symm.trans outcome)
        exact ⟨rfl, within⟩
    | error e => exact exists_of_checked_eq_error (whole.symm.trans outcome)

theorem parse_tracked_negations :
    let a : Operand := .complement (.letter ⟨0⟩)
    let p : Product := .times (.one (.mk 2 a)) true (.mk 0 (.digit true))
    let e : Expr := Nat.repeat .not 512 (.var ⟨0⟩)
    (∃ l, a.load = .ok l ∧ l.Within) ∧ (∃ l, (Factor.mk 2 a).load = .ok l ∧ l.Within) ∧
      (∃ l, (p.chain >>= Chain.join .and) = .ok l ∧ l.Within) ∧
      (∃ l, (Sum.one p).load = .ok l ∧ l.Within) ∧
      (∃ f, parse "!(A'·1)+B" = .ok f ∧ f.metrics.depth ≤ maxDepth) ∧
      ∃ found, maxDepth < found ∧
        parse e.programmingText = .error (.tooComplex .expressionDepth found maxDepth) := by
  intro a p e
  have fits : checkSize (e.render .plain none) = .ok () := by decide +kernel
  have high : e.balance.depth = 513 := by
    rw [Expr.balance_repeat_not, Expr.balance_var, Expr.depth_repeat_not]
    rfl
  clear_value e
  obtain ⟨_, sums, products, factors, operands, _⟩ := parse_tracked ""
  refine ⟨⟨_, rfl, operands a _ rfl⟩, ⟨_, rfl, factors (.mk 2 a) _ rfl⟩,
    ⟨_, rfl, products p _ rfl⟩, ⟨_, rfl, sums (.one p) _ rfl⟩, ?_, ?_⟩
  · have read : (parse "!(A'·1)+B").isOk = true := by decide +kernel
    cases parsed : parse "!(A'·1)+B" with
    | error failure =>
        rw [parsed] at read
        cases read
    | ok f => exact ⟨f, rfl, (parse_tracked _).1 f parsed⟩
  · obtain ⟨sum, text, trees⟩ := e.written.sum
    have spells : sum.text = normalize e.programmingText.toList := by
      rw [Expr.programmingText, String.toList_ofList, normalize_programming, text]
    have faultless : fault? (normalize e.programmingText.toList) = none :=
      (fault?_eq_none_iff _).mpr ⟨sum, Sum.read?_eq_some_iff.mpr spells⟩
    have small : checkSize (normalize e.programmingText.toList) = .ok () := by
      rw [Expr.programmingText, String.toList_ofList, normalize_programming,
        checkSize_complementLeaves, fits]
    obtain ⟨within, _, _, _, _, refused⟩ := parse_tracked e.programmingText
    obtain ⟨q, _, _, outcome⟩ := refused faultless small
    have read := exists_load_of_text spells
    cases parsed : parse e.programmingText with
    | error failure =>
        rw [parsed] at outcome
        obtain ⟨l, _, above, rfl⟩ := outcome
        exact ⟨l.depth, above, rfl⟩
    | ok f =>
        rw [parsed] at read
        obtain ⟨l, loaded, rfl⟩ := read
        have low : l.expr.depth ≤ maxDepth := within _ parsed
        rw [Sum.expr_load loaded, trees, Expr.join_map_balance, high] at low
        exact absurd low (by decide)

end Formula

end SwitchingLogic
