import SwitchingLogic.Formula.Basic
import SwitchingLogic.Text.Keyword
import SwitchingLogic.TruthTable

/-!
# Conversion to normal forms

The canonical form comes from the truth table.  The short form comes from distributing the
expression: conjunctions multiply out, disjunctions concatenate, and the terms that result are
cleared of conflicts, repetitions and terms that include another one.  A product of sums is found
as a sum of products of the negation, with every literal negated.
-/

namespace SwitchingLogic

def NormalForm.read (s : String) : Except Error NormalForm :=
  match Text.keyword s with
  | "sop" | "sum-of-products" => .ok .sumOfProducts
  | "pos" | "product-of-sums" => .ok .productOfSums
  | _ => .error (.unknownMethod s)

namespace Conversion

def maxTerms : Nat := 4096

/-- Multiply each of the terms by the products of an expression, or of its negation if `positive`
is false.  Terms may come to be in conflict. -/
def expand (form : NormalForm) : Expr → Bool → List Term → Except Error (List Term)
  | .var v, positive, ts => .ok (ts.map (·.restrict v positive))
  | .const b, positive, ts => .ok (if b = positive then ts else [])
  | .not e, positive, ts => expand form e (!positive) ts
  | .binary op l r, positive, ts =>
      if (op == .and) == positive then do
        expand form r positive (← expand form l positive ts)
      else do
        let all := (← expand form l positive ts) ++ (← expand form r positive ts)
        if all.length > maxTerms then throw (.tooManyTerms form maxTerms) else pure all

/-- The terms of an expression for a form: the products of its sum, or the literals of its
clauses. -/
def distribute (form : NormalForm) (e : Expr) : Except Error (List Term) :=
  match form with
  | .sumOfProducts => expand form e true [.free]
  | .productOfSums => do
      let ts ← expand form e false [.free]
      pure (ts.map Term.negateAll)

def assemble (form : NormalForm) (ts : List Term) : Expr :=
  match form with
  | .sumOfProducts => Expr.disj (ts.map Term.toProduct)
  | .productOfSums => Expr.conj (ts.map Term.toSum)

def withoutConflicts (ts : List Term) : List Term :=
  ts.filter fun t => !t.hasConflict

/-- Leave out the terms that include all literals of another term, and more. -/
def withoutAbsorbed (ts : List Term) : List Term :=
  ts.filter fun t => !ts.any fun s => s.contains t && s != t

inductive Action where
  | canonical (terms : Nat)
  | distributed (terms : Nat)
  | removedConflicts (terms : Nat)
  | removedRepetitions (terms : Nat)
  | removedAbsorbed (terms : Nat)
  deriving DecidableEq, Repr

def Action.description (form : NormalForm) : Action → String
  | .canonical n => s!"Canonical form with {n} {form.termName}s"
  | .distributed n => s!"Distributed form with {n} {form.termName}s"
  | .removedConflicts n => s!"Removed {n} {form.conflictName} {form.termName}s"
  | .removedRepetitions n => s!"Removed {n} duplicate {form.termName}s"
  | .removedAbsorbed n => s!"Removed {n} absorbed {form.termName}s"

structure Step where
  action : Action
  expr : Expr

structure Progress where
  terms : List Term
  steps : List Step

/-- Go over to fewer terms.  If any are gone, the others are sorted and the step is recorded. -/
def Progress.remove (p : Progress) (form : NormalForm) (action : Nat → Action)
    (remove : List Term → List Term) : Progress :=
  let rest := remove p.terms
  if rest.length < p.terms.length then
    let sorted := Term.sort rest
    ⟨sorted, p.steps ++ [⟨action (p.terms.length - rest.length), assemble form sorted⟩]⟩
  else p

structure Result where
  form : NormalForm
  given : Expr
  canonical : Expr
  minimized : Expr
  steps : List Step
  variableCount : Nat
  canonicalTerms : Nat
  distributedTerms : Nat
  minimizedTerms : Nat

/-- The canonical form of a table and the number of its terms. -/
def canonicalForm (t : TruthTable) : NormalForm → Expr × Nat
  | .sumOfProducts => (t.canonicalSop, t.minterms.length)
  | .productOfSums => (t.canonicalPos, t.maxterms.length)

def convert (f : Formula) (form : NormalForm) : Except Error Result := do
  let t ← TruthTable.build f.expr f.vars
  let (canonical, canonicalTerms) := canonicalForm t form
  let terms ← distribute form f.expr
  let start : Progress :=
    ⟨terms, [⟨.canonical canonicalTerms, canonical⟩,
      ⟨.distributed terms.length, assemble form terms⟩]⟩
  let cleared := start.remove form .removedConflicts withoutConflicts
  let single := cleared.remove form .removedRepetitions List.eraseDups
  let final := single.remove form .removedAbsorbed withoutAbsorbed
  let sorted := Term.sort final.terms
  pure ⟨form, f.expr, canonical, assemble form sorted, final.steps, f.vars.length,
    canonicalTerms, terms.length, sorted.length⟩

end Conversion

end SwitchingLogic
