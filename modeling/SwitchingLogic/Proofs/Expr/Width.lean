import SwitchingLogic.Expr.Printer
import SwitchingLogic.Proofs.Expr.Balance

/-!
# Widths of printed expressions

How much room an expression takes up in the canonical text depends on where it stands, since each
place puts some connectives into parentheses and not others.  The operands of a chain all stand at
places of one kind and have a sign between them, so that the width of a chain is a sum over its
operands, however the chain is nested.  The number of nodes is such a sum, too.
-/

namespace SwitchingLogic.Expr

def total (cost : Expr → Nat) (es : List Expr) : Nat :=
  es.foldr (fun e sum => cost e + sum) 0

/-- A chain of the connective costs as much as its two parts. -/
def AddsUp (op : Connective) (cost : Expr → Nat) : Prop :=
  ∀ l r, cost (.binary op l r) = cost l + cost r

variable {op : Connective} {cost : Expr → Nat} {es fs : List Expr}

theorem total_cons (cost : Expr → Nat) (e : Expr) (rest : List Expr) :
    total cost (e :: rest) = cost e + total cost rest := rfl

theorem total_singleton (cost : Expr → Nat) (e : Expr) : total cost [e] = cost e := rfl

theorem total_append (cost : Expr → Nat) (es fs : List Expr) :
    total cost (es ++ fs) = total cost es + total cost fs := by
  induction es with
  | nil => simp [total]
  | cons e rest ih => simp only [List.cons_append, total_cons, ih, Nat.add_assoc]

theorem mul_length_le_total {k : Nat} (least : ∀ e, k ≤ cost e) (es : List Expr) :
    k * es.length ≤ total cost es := by
  induction es with
  | nil => exact Nat.le_refl _
  | cons e rest ih =>
      have here := least e
      simp only [List.length_cons, Nat.mul_add, Nat.mul_one, total_cons]
      omega

/-- Leaving out operands saves at least the least cost for each of them. -/
theorem total_add_le_of_sublist {k : Nat} (least : ∀ e, k ≤ cost e) (part : es.Sublist fs) :
    total cost es + k * (fs.length - es.length) ≤ total cost fs := by
  induction part with
  | slnil => exact Nat.le_refl _
  | @cons es fs f part ih =>
      have shorter := part.length_le
      have saved : (fs.length + 1) - es.length = (fs.length - es.length) + 1 := by omega
      have here := least f
      simp only [List.length_cons, saved, Nat.mul_add, Nat.mul_one, total_cons]
      omega
  | @cons_cons es fs f part ih =>
      simp only [List.length_cons, Nat.add_sub_add_right, total_cons]
      omega

/-- A cost that adds up is the same for a tree and for the operands of its chain. -/
theorem AddsUp.total_operands (adds : AddsUp op cost) (e : Expr) :
    total cost (e.operands op) = cost e := by
  induction e using chain_induction op with
  | other e root => rw [operands_eq_singleton root, total_singleton]
  | chain l r ihl ihr => rw [operands_binary, total_append, ihl, ihr, adds]

theorem AddsUp.total_join (adds : AddsUp op cost) (some' : es ≠ []) :
    cost (join op es) = total cost es := by
  refine join_induction op (motive := fun es tree => cost tree = total cost es)
    (fun e => ?_) (fun front back _ _ ihFront ihBack => ?_) some'
  · rw [total_singleton]
  · rw [adds, ihFront, ihBack, total_append]

/-- The cost of an operand in nodes, with the connective in front of it. -/
def nodes (e : Expr) : Nat := e.complexity + 1

theorem addsUp_nodes (op : Connective) : AddsUp op nodes := by
  intro l r
  simp only [nodes, complexity]
  omega

theorem two_le_nodes (e : Expr) : 2 ≤ e.nodes := by
  cases e <;> simp [nodes, complexity]

/-- The connectives that are put into parentheses directly below `parent`. -/
def groupedBelow (parent : Option Connective) (op : Connective) : Bool :=
  op.priority < (parent.map Connective.priority).getD 0

/-- The number of characters of an expression at a place where the connectives in `groups` are put
into parentheses. -/
def width (e : Expr) (groups : Connective → Bool) : Nat :=
  e.textLength + if e.connective?.any groups then 2 else 0

def signWidth (op : Connective) : Nat := (Style.canonical.sign op).length

/-- The width of an operand of a chain, with the sign in front of it. -/
def slot (op : Connective) (e : Expr) : Nat :=
  e.width (groupedBelow (some op)) + signWidth op

theorem length_grouped (needed : Bool) (s : List Char) :
    (grouped needed s).length = s.length + if needed then 2 else 0 := by
  cases needed <;> simp [grouped]

theorem length_render (parent : Option Connective) (e : Expr) :
    (e.render .canonical parent).length = e.width (groupedBelow parent) := by
  cases e with
  | var | const | not => rfl
  | binary op l r =>
      rw [render, length_grouped, width, textLength, chars, render, length_grouped]
      rfl

theorem textLength_not (e : Expr) :
    (Expr.not e).textLength = e.width (fun _ => true) + 1 := by
  have inner : (grouped (!e.isAtomic) (e.render .canonical none)).length =
      e.width fun _ => true := by
    rw [length_grouped]
    cases e <;> rfl
  rw [← inner]
  exact List.length_append

theorem textLength_binary (op : Connective) (l r : Expr) :
    (binary op l r).textLength = l.slot op + r.width (groupedBelow (some op)) := by
  rw [slot, ← length_render, ← length_render, signWidth, ← List.length_append,
    ← List.length_append]
  rfl

theorem one_le_textLength (e : Expr) : 1 ≤ e.textLength := by
  cases e with
  | var | const => exact Nat.le_refl 1
  | not e => simp [textLength_not]
  | binary op l r =>
      have := one_le_textLength l
      simp only [textLength_binary, slot, width]
      omega

theorem signWidth_lt_slot (op : Connective) (e : Expr) : signWidth op + 1 ≤ e.slot op := by
  have := e.one_le_textLength
  simp only [slot, width]
  omega

/-- A chain stands in a chain of its own connective without parentheses. -/
theorem slot_of_root {e : Expr} (root : e.connective? = some op) :
    e.slot op = e.textLength + signWidth op := by
  have open' : groupedBelow (some op) op = false := by cases op <;> rfl
  simp [slot, width, root, open']

theorem addsUp_slot (op : Connective) : AddsUp op (slot op) := by
  intro l r
  rw [slot_of_root rfl, textLength_binary, Nat.add_assoc]
  rfl

/-- With a sign in front of it, what is no chain of the connective has room for its
parentheses. -/
theorem width_le_slot {e : Expr} (other : e.connective? ≠ some op)
    (groups : Connective → Bool) : e.width groups ≤ e.slot op := by
  have most : e.width groups ≤ e.textLength + 2 := by
    simp only [width]
    split <;> omega
  cases root : e.connective? with
  | none => simp [slot, width, root]
  | some op' =>
      rw [root] at other
      cases op with
      | or =>
          have sign : signWidth .or = 3 := rfl
          simp only [slot, width, sign] at most ⊢
          omega
      | and =>
          cases op' with
          | and => exact absurd rfl other
          | or =>
              refine most.trans ?_
              simp [slot, width, root, groupedBelow, Connective.priority]

/-- Wherever it stands, the first expression takes up no more room than the second one. -/
def Fits (e f : Expr) : Prop :=
  ∀ groups, e.width groups ≤ f.width groups

theorem Fits.refl (e : Expr) : e.Fits e := fun _ => Nat.le_refl _

theorem Fits.trans {e f g : Expr} (first : e.Fits f) (second : f.Fits g) : e.Fits g :=
  fun groups => (first groups).trans (second groups)

theorem Fits.textLength_le {e f : Expr} (fits : e.Fits f) : e.textLength ≤ f.textLength := by
  simpa [width] using fits fun _ => false

theorem Fits.slot_le {e f : Expr} (fits : e.Fits f) (op : Connective) : e.slot op ≤ f.slot op :=
  Nat.add_le_add_right (fits _) _

theorem fits_of_leaf {e f : Expr} (leaf : e.textLength = 1) (root : e.connective? = none) :
    e.Fits f := by
  intro groups
  have := f.one_le_textLength
  simp only [width, leaf, root]
  exact this.trans (Nat.le_add_right _ _)

theorem Fits.not {e f : Expr} (fits : e.Fits f) : (Expr.not e).Fits (.not f) := by
  intro groups
  have inner := fits fun _ => true
  simpa [width, textLength_not, connective?] using inner

/-- Two negations leave room for the parentheses that may come with what is below them. -/
theorem fits_not_not (e : Expr) : e.Fits (.not (.not e)) := by
  intro groups
  have most : e.width groups ≤ e.width (fun _ => true) := by
    cases root : e.connective? <;> simp [width, root]
    split <;> omega
  have outer : (Expr.not (.not e)).width groups = e.width (fun _ => true) + 2 := by
    simp [width, textLength_not, connective?]
  exact outer ▸ most.trans (Nat.le_add_right _ _)

/-- What replaces a chain needs the room of the chain among its like, and has to make up for
parentheses if it is no such chain any more. -/
theorem fits_of_slot_le {e f : Expr} (root : f.connective? = some op)
    (room : e.slot op ≤ f.slot op)
    (alone : e.connective? ≠ some op → e.slot op ≤ f.textLength) : e.Fits f := by
  intro groups
  by_cases chain : e.connective? = some op
  · rw [slot_of_root root, slot_of_root chain] at room
    simp only [width, root, chain]
    omega
  · calc
      e.width groups ≤ e.slot op := width_le_slot chain groups
      _ ≤ f.textLength := alone chain
      _ ≤ f.width groups := Nat.le_add_right _ _

end SwitchingLogic.Expr
