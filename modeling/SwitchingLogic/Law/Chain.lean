import SwitchingLogic.Expr.Join
import SwitchingLogic.Law.Basic

/-!
# Laws on chains

A chain of one connective is treated as the list of its operands, so that a law can relate any
two of them.  The laws are tried in a fixed order: the absorbing constant, neutral constants,
repetitions, complementary pairs, and absorption.
-/

namespace SwitchingLogic.Law

structure Chain where
  operands : List Expr
  steps : List Step

/-- Go over to fewer operands by a law.  The law fires only if there are fewer. -/
def Chain.shrink (c : Chain) (op : Connective) (law : Law) (operands : List Expr) : Chain :=
  if operands.length < c.operands.length then
    ⟨operands, c.steps ++ [⟨law, Expr.join op c.operands, Expr.join op operands⟩]⟩
  else c

def withoutIdentity (op : Connective) (operands : List Expr) : List Expr :=
  operands.filter fun e => e != .const op.identity

def hasComplement : List Expr → Bool
  | [] => false
  | e :: rest => rest.any e.isNegationOf || hasComplement rest

def included (a b : List Expr) : Bool :=
  a.all b.contains

/-- An operand, given by its parts and its place, makes another one superfluous: its parts are
among those of the other, and of two with the same parts the first one stays. -/
def absorbs (s t : List Expr × Nat) : Bool :=
  s.2 != t.2 && included s.1 t.1 && (s.2 < t.2 || !included t.1 s.1)

/-- The operands that no other one absorbs.  The parts of an operand are its operands for the
dual connective. -/
def survivors (op : Connective) (operands : List Expr) : List Expr :=
  let parts := (operands.map (Expr.operands op.dual)).zipIdx
  ((operands.zip parts).filter fun t => !parts.any fun s => absorbs s t.2).map (·.1)

def applyToChain (op : Connective) (operands : List Expr) : Outcome :=
  let annihilator := Expr.const op.annihilator
  if operands.contains annihilator then
    ⟨some annihilator, [⟨.null, Expr.join op operands, annihilator⟩]⟩
  else
    let chain : Chain := ⟨operands, []⟩
    let chain := chain.shrink op .identity (withoutIdentity op chain.operands)
    let chain := chain.shrink op .idempotent chain.operands.eraseDups
    if hasComplement chain.operands then
      ⟨some annihilator,
        chain.steps ++ [⟨.complement, Expr.join op chain.operands, annihilator⟩]⟩
    else
      let chain := chain.shrink op .absorption (survivors op chain.operands)
      if chain.steps.isEmpty then .unchanged
      else ⟨some (Expr.join op chain.operands), chain.steps⟩

end SwitchingLogic.Law
