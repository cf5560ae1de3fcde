import SwitchingLogic.Expr.NegationNormal
import SwitchingLogic.Proofs.Expr.Balance

/-!
# Negation normal form

An expression is in negation normal form when it negates variables only.  The form that is built
for an expression, and the one for its negation, are described together by one equation for each
kind of node; they are in negation normal form, have the value of the expression or the opposite
one, and leave alone what is in negation normal form already.  The tree itself serves as the form
if it has no negations at all: a negation is always built again, also on a variable.
-/

namespace SwitchingLogic.Expr

/-- Whatever is negated in the expression satisfies the condition. -/
def NegatesOnly (allowed : Expr → Prop) : Expr → Prop
  | .var _ => True
  | .const _ => True
  | .not e => allowed e
  | .binary _ l r => l.NegatesOnly allowed ∧ r.NegatesOnly allowed

def IsVariable (e : Expr) : Prop := ∃ v, e = .var v

def IsLeaf (e : Expr) : Prop := e.IsVariable ∨ ∃ b, e = .const b

def IsNegationNormal (e : Expr) : Prop := e.NegatesOnly IsVariable

/-- The expression with the opposite constant in place of each negated constant. -/
def resolveConstants : Expr → Expr
  | .var v => .var v
  | .const b => .const b
  | .not (.const b) => .const !b
  | .not e => .not e.resolveConstants
  | .binary op l r => .binary op l.resolveConstants r.resolveConstants

def ConstantFree : Expr → Prop
  | .var _ => True
  | .const _ => False
  | .not e => e.ConstantFree
  | .binary _ l r => l.ConstantFree ∧ r.ConstantFree

theorem NegatesOnly.mono {allowed allowed' : Expr → Prop} (weaker : ∀ e, allowed e → allowed' e)
    {e : Expr} (only : e.NegatesOnly allowed) : e.NegatesOnly allowed' := by
  induction e with
  | var | const => trivial
  | not e _ => exact weaker e only
  | binary op l r ihl ihr => exact ⟨ihl only.1, ihr only.2⟩

/-- Without constants it is the same to negate variables only and to negate leaves only. -/
theorem NegatesOnly.isNegationNormal {e : Expr} (only : e.NegatesOnly IsLeaf)
    (free : e.ConstantFree) : e.IsNegationNormal := by
  induction e with
  | var | const => trivial
  | not e _ =>
      rcases only with variable' | ⟨b, rfl⟩
      · exact variable'
      · exact free.elim
  | binary op l r ihl ihr => exact ⟨ihl only.1 free.1, ihr only.2 free.2⟩

theorem IsNegationNormal.negatesOnly {e : Expr} (normal : e.IsNegationNormal) :
    e.NegatesOnly IsLeaf :=
  normal.mono fun _ => Or.inl

theorem NegatesOnly.of_mem_operands {allowed : Expr → Prop} {op : Connective} {e f : Expr}
    (only : e.NegatesOnly allowed) (member : f ∈ e.operands op) : f.NegatesOnly allowed := by
  induction e using chain_induction op with
  | other e root =>
      rw [operands_eq_singleton root] at member
      cases List.mem_singleton.mp member
      exact only
  | chain l r ihl ihr =>
      rw [operands_binary, List.mem_append] at member
      exact member.elim (ihl only.1) (ihr only.2)

theorem negatesOnly_join {allowed : Expr → Prop} (op : Connective) {es : List Expr}
    (only : ∀ e ∈ es, e.NegatesOnly allowed) : (join op es).NegatesOnly allowed := by
  induction es using join.induct with
  | case1 =>
      rw [join]
      trivial
  | case2 e =>
      rw [join]
      exact only e (List.mem_singleton.mpr rfl)
  | case3 e f rest all half ihFront ihBack =>
      rw [join]
      exact ⟨ihFront fun g member => only g (List.mem_of_mem_take member),
        ihBack fun g member => only g (List.mem_of_mem_drop member)⟩

theorem negatesOnly_literal {allowed : Expr → Prop} {v : Variable} (allows : allowed (.var v))
    (value : Bool) : (literal v value).NegatesOnly allowed := by
  cases value with
  | true => trivial
  | false => exact allows

def nnfOf (e : Expr) (positive : Bool) : Expr := (e.rebuildNnf positive).getD e

@[simp]
theorem nnfOf_var (v : Variable) (positive : Bool) :
    (var v).nnfOf positive = literal v positive := by
  cases positive <;> rfl

@[simp]
theorem nnfOf_const (b positive : Bool) : (const b).nnfOf positive = const (b == positive) := by
  cases b <;> cases positive <;> rfl

@[simp]
theorem nnfOf_not (e : Expr) (positive : Bool) :
    (Expr.not e).nnfOf positive = e.nnfOf !positive := by
  rw [nnfOf, nnfOf, rebuildNnf]
  cases e.rebuildNnf !positive <;> rfl

@[simp]
theorem nnfOf_binary (op : Connective) (l r : Expr) (positive : Bool) :
    (binary op l r).nnfOf positive =
      binary (if positive then op else op.dual) (l.nnfOf positive) (r.nnfOf positive) := by
  cases positive with
  | false => rfl
  | true =>
      rw [nnfOf, rebuildNnf, nnfOf, nnfOf]
      cases l.rebuildNnf true <;> cases r.rebuildNnf true <;> rfl

theorem isNegationNormal_nnfOf (e : Expr) (positive : Bool) :
    (e.nnfOf positive).IsNegationNormal := by
  induction e generalizing positive with
  | var v =>
      rw [nnfOf_var]
      exact negatesOnly_literal ⟨v, rfl⟩ positive
  | const b =>
      rw [nnfOf_const]
      trivial
  | not e ih =>
      rw [nnfOf_not]
      exact ih !positive
  | binary op l r ihl ihr =>
      rw [nnfOf_binary]
      exact ⟨ihl positive, ihr positive⟩

theorem eval_nnfOf (e : Expr) (positive : Bool) (s : State) :
    (e.nnfOf positive).eval s = (e.eval s == positive) := by
  induction e generalizing positive with
  | var v => simp [eval]
  | const b => simp [eval]
  | not e ih =>
      rw [nnfOf_not, ih, eval]
      cases e.eval s <;> cases positive <;> rfl
  | binary op l r ihl ihr =>
      rw [nnfOf_binary, eval, ihl, ihr, eval]
      cases positive with
      | true => simp
      | false => simpa using op.eval_dual_not (l.eval s) (r.eval s)

/-- What is in negation normal form stays as it is. -/
theorem IsNegationNormal.nnf_eq {e : Expr} (normal : e.IsNegationNormal) : e.nnf = e := by
  have same : e.nnfOf true = e := by
    induction e with
    | var v => rfl
    | const b => rfl
    | not e _ =>
        obtain ⟨v, rfl⟩ := normal
        rfl
    | binary op l r ihl ihr =>
        rw [nnfOf_binary, ihl normal.1, ihr normal.2]
        rfl
  exact same

/-- Nothing else stays as it is. -/
theorem nnf_eq_iff {e : Expr} : e.nnf = e ↔ e.IsNegationNormal :=
  ⟨fun same => same ▸ isNegationNormal_nnfOf e true, IsNegationNormal.nnf_eq⟩

def NegationFree (e : Expr) : Prop := e.NegatesOnly fun _ => False

theorem negatesOnly_and {p q : Expr → Prop} {e : Expr} :
    (e.NegatesOnly fun f => p f ∧ q f) ↔ e.NegatesOnly p ∧ e.NegatesOnly q := by
  induction e with
  | var | const => exact (and_self_iff).symm
  | not e _ => rfl
  | binary op l r ihl ihr =>
      rw [NegatesOnly, NegatesOnly, NegatesOnly, ihl, ihr, and_and_and_comm]

/-- An expression without negations negates variables only, and it does not negate any. -/
theorem negationFree_iff {e : Expr} :
    e.NegationFree ↔ e.IsNegationNormal ∧ e.NegatesOnly fun f => ¬ f.IsVariable := by
  rw [IsNegationNormal, ← negatesOnly_and]
  simp only [and_not_self_iff]
  rfl

/-- A negation is always built. -/
theorem isSome_rebuildNnf_not (e : Expr) (positive : Bool) :
    ((Expr.not e).rebuildNnf positive).isSome = true := by
  rw [rebuildNnf]
  cases e.rebuildNnf !positive <;> rfl

theorem rebuildNnf_eq_none_iff {e : Expr} : e.rebuildNnf true = none ↔ e.NegationFree := by
  induction e with
  | var v => exact iff_of_true rfl trivial
  | const b => exact iff_of_true rfl trivial
  | not e _ =>
      refine iff_of_false (fun serves => ?_) id
      have built := isSome_rebuildNnf_not e true
      rw [serves] at built
      cases built
  | binary op l r ihl ihr =>
      rw [NegationFree, NegatesOnly, ← NegationFree, ← NegationFree, ← ihl, ← ihr, rebuildNnf]
      cases l.rebuildNnf true <;> cases r.rebuildNnf true <;> simp

/-- The expression serves as it stands exactly if it has no negations. -/
theorem servesAsNnf_exact (e : Expr) :
    (e.servesAsNnf = true ↔ e.NegationFree) ∧
      (e.servesAsNnf = true → e.IsNegationNormal ∧ e.nnf = e) ∧
      (e.servesAsNnf = false →
        e.rebuildNnf true = some e.nnf ∧ (e.nnf = e ↔ e.IsNegationNormal)) ∧
      ((e.NegatesOnly fun f => ¬ f.IsVariable) →
        (e.servesAsNnf = true ↔ e.IsNegationNormal)) := by
  have serves : e.servesAsNnf = true ↔ e.NegationFree := by
    rw [servesAsNnf, Option.isNone_iff_eq_none, rebuildNnf_eq_none_iff]
  refine ⟨serves, fun holds => ?_, fun fails => ⟨?_, nnf_eq_iff⟩, fun other => ?_⟩
  · have normal := (negationFree_iff.mp (serves.mp holds)).1
    exact ⟨normal, normal.nnf_eq⟩
  · rw [servesAsNnf] at fails
    rw [nnf]
    cases built : e.rebuildNnf true with
    | none =>
        rw [built] at fails
        cases fails
    | some f => rfl
  · rw [serves, negationFree_iff, and_iff_left other]

/-- `AB + C` serves as it stands, and `(AB)'` is built again. -/
theorem servesAsNnf_exact_product :
    let product : Expr := .binary .and (.var ⟨0⟩) (.var ⟨1⟩)
    ((Expr.binary .or product (.var ⟨2⟩)).IsNegationNormal ∧
        (Expr.binary .or product (.var ⟨2⟩)).nnf = .binary .or product (.var ⟨2⟩)) ∧
      ((Expr.not product).NegatesOnly fun f => ¬ f.IsVariable) ∧
      ((Expr.not product).servesAsNnf = true ↔ (Expr.not product).IsNegationNormal) := by
  intro product
  have other : (Expr.not product).NegatesOnly fun f => ¬ f.IsVariable := by
    rintro ⟨v, variable'⟩
    exact Expr.noConfusion variable'
  exact ⟨(servesAsNnf_exact (.binary .or product (.var ⟨2⟩))).2.1 rfl, other,
    (servesAsNnf_exact (.not product)).2.2.2 other⟩

/-- A negated variable is in negation normal form, and so is a sum of products of literals; yet
both are built again. -/
theorem servesAsNnf_negated_variable :
    let sum : Expr := .binary .or (.binary .and (.var ⟨0⟩) (.not (.var ⟨1⟩))) (.var ⟨2⟩)
    ((Expr.not (.var ⟨0⟩)).IsNegationNormal ∧ (Expr.not (.var ⟨0⟩)).servesAsNnf = false) ∧
      sum.IsNegationNormal ∧ sum.nnf = sum ∧ sum.servesAsNnf = false := by
  intro sum
  have normal : sum.IsNegationNormal := ⟨⟨trivial, ⟨1⟩, rfl⟩, trivial⟩
  exact ⟨⟨⟨⟨0⟩, rfl⟩, rfl⟩, normal, normal.nnf_eq, rfl⟩

end SwitchingLogic.Expr
