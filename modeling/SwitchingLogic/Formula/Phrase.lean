import SwitchingLogic.Error
import SwitchingLogic.Expr.Join
import SwitchingLogic.Expr.Printer

/-!
# Phrases

The written structure of a normalized formula.  A sum has products between its `+` signs; a
product has factors, with or without a `·` between them; a factor is an operand behind any number
of `!` signs; an operand is a letter, a digit, a group in parentheses, or an operand with a `'`
behind it.  Sums and products grow to the right, as a reader meets their parts.

Loading a phrase gives the expression tree.  Chains become balanced trees, and the height of the
tree is bounded before the tree is built.
-/

namespace SwitchingLogic.Phrase

mutual

/-- Products between `+` signs. -/
inductive Sum where
  | one (product : Product)
  | plus (front : Sum) (product : Product)

/-- Factors one after another; `dot` says whether a `·` stands before the last of them. -/
inductive Product where
  | one (factor : Factor)
  | times (front : Product) (dot : Bool) (factor : Factor)

/-- An operand behind a number of `!` signs. -/
inductive Factor where
  | mk (bangs : Nat) (operand : Operand)

inductive Operand where
  | letter (v : Variable)
  | digit (value : Bool)
  | group (sum : Sum)
  | complement (operand : Operand)

end

mutual

def Sum.text : Sum → List Char
  | .one p => p.text
  | .plus s p => s.text ++ '+' :: p.text

def Product.text : Product → List Char
  | .one f => f.text
  | .times p dot f => p.text ++ (if dot then ['·'] else []) ++ f.text

def Factor.text : Factor → List Char
  | .mk bangs o => List.replicate bangs '!' ++ o.text

def Operand.text : Operand → List Char
  | .letter v => [v.letter]
  | .digit b => [Expr.digit b]
  | .group s => '(' :: s.text ++ [')']
  | .complement o => o.text ++ ['\x27']

end

def maxDepth : Nat := 512

def checkDepth (depth : Nat) : Except Error Nat :=
  if depth > maxDepth then throw (.tooComplex .expressionDepth depth maxDepth) else pure depth

/-- A tree with an upper bound of its height. -/
structure Loaded where
  expr : Expr
  depth : Nat

/-- The operands of a chain, the last one first, with an upper bound of their heights. -/
structure Chain where
  operands : List Expr
  deepest : Nat

def Chain.single (e : Loaded) : Chain := ⟨[e.expr], e.depth⟩

def Chain.push (c : Chain) (e : Loaded) : Chain := ⟨e.expr :: c.operands, max c.deepest e.depth⟩

def Chain.join (op : Connective) (c : Chain) : Except Error Loaded := do
  let depth ← checkDepth (c.deepest + Expr.joinDepth c.operands.length)
  pure ⟨Expr.join op c.operands.reverse, depth⟩

mutual

def Sum.chain : Sum → Except Error Chain
  | .one p => do
      let e ← (← p.chain).join .and
      pure (.single e)
  | .plus s p => do
      let c ← s.chain
      let e ← (← p.chain).join .and
      pure (c.push e)

def Product.chain : Product → Except Error Chain
  | .one f => do
      let e ← f.load
      pure (.single e)
  | .times p _ f => do
      let c ← p.chain
      let e ← f.load
      pure (c.push e)

/-- The tree of a factor: one negation for each `!`. -/
def Factor.load : Factor → Except Error Loaded
  | .mk bangs o => do
      let e ← o.load
      let depth ← checkDepth (e.depth + bangs)
      pure ⟨bangs.repeat .not e.expr, depth⟩

def Operand.load : Operand → Except Error Loaded
  | .letter v => pure ⟨.var v, 1⟩
  | .digit b => pure ⟨.const b, 1⟩
  | .group s => do (← s.chain).join .or
  | .complement o => do
      let e ← o.load
      let depth ← checkDepth (e.depth + 1)
      pure ⟨.not e.expr, depth⟩

end

def Sum.load (s : Sum) : Except Error Loaded := do
  (← s.chain).join .or

end SwitchingLogic.Phrase
