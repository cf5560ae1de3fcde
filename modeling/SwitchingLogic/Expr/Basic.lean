import SwitchingLogic.Connective
import SwitchingLogic.LogicFunction

/-!
# Expression trees

A Boolean expression over the variables: leaves are variables and constants, inner nodes are
negations and binary connectives.  This module gives the value of a tree, its variables, its size
and the view of it as a chain of operands.
-/

namespace SwitchingLogic

inductive Expr where
  | var (v : Variable)
  | const (value : Bool)
  | not (e : Expr)
  | binary (op : Connective) (left right : Expr)
  deriving DecidableEq, Hashable

/-- The size of a tree: nodes, nodes that are not leaves, and height (one for a leaf). -/
structure Metrics where
  complexity : Nat
  operatorCount : Nat
  depth : Nat
  deriving DecidableEq

namespace Expr

def literal (v : Variable) (value : Bool) : Expr :=
  if value then .var v else .not (.var v)

def eval : Expr → State → Bool
  | .var v, s => s.isActive v
  | .const b, _ => b
  | .not e, s => !e.eval s
  | .binary op l r, s => op.eval (l.eval s) (r.eval s)

def vars : Expr → VarSet
  | .var v => VarSet.singleton v
  | .const _ => VarSet.empty
  | .not e => e.vars
  | .binary _ l r => l.vars.union r.vars

instance : LogicFunction Expr := ⟨eval, vars⟩

def complexity : Expr → Nat
  | .var _ | .const _ => 1
  | .not e => e.complexity + 1
  | .binary _ l r => l.complexity + r.complexity + 1

def operatorCount : Expr → Nat
  | .var _ | .const _ => 0
  | .not e => e.operatorCount + 1
  | .binary _ l r => l.operatorCount + r.operatorCount + 1

/-- The height: the number of nodes on the longest path to a leaf. -/
def depth : Expr → Nat
  | .var _ | .const _ => 1
  | .not e => e.depth + 1
  | .binary _ l r => max l.depth r.depth + 1

def metrics (e : Expr) : Metrics := ⟨e.complexity, e.operatorCount, e.depth⟩

def literalCount : Expr → Nat
  | .var _ => 1
  | .const _ => 0
  | .not e => e.literalCount
  | .binary _ l r => l.literalCount + r.literalCount

def connective? : Expr → Option Connective
  | .binary op _ _ => some op
  | _ => none

def children? : Expr → Option (Expr × Expr)
  | .binary _ l r => some (l, r)
  | _ => none

def asLiteral? : Expr → Option (Variable × Bool)
  | .var v => some (v, true)
  | .not (.var v) => some (v, false)
  | _ => none

def asConstant? : Expr → Option Bool
  | .const b => some b
  | _ => none

/-- One of the two trees is the negation of the other, as written. -/
def isNegationOf (e f : Expr) : Bool :=
  e == .not f || f == .not e

/-- The operands of the chain of `op` at the root, in front of `rest`. -/
def operandsOnto (op : Connective) : Expr → List Expr → List Expr
  | .binary op' l r, rest =>
      if op' = op then l.operandsOnto op (r.operandsOnto op rest) else .binary op' l r :: rest
  | e, rest => e :: rest

/-- The operands of the chain of `op` at the root, from left to right.  A tree with another root
is its own single operand. -/
def operands (op : Connective) (e : Expr) : List Expr := e.operandsOnto op []

/-- The dual tree: truth and falsity are exchanged, and so are AND and OR. -/
def dual : Expr → Expr
  | .var v => .var v
  | .const b => .const (!b)
  | .not e => .not e.dual
  | .binary op l r => .binary op.dual l.dual r.dual

end Expr

end SwitchingLogic
