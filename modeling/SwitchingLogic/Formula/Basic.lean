import SwitchingLogic.Formula.Reader
import SwitchingLogic.Formula.Validate

/-!
# Formulas

A formula is an expression together with the text that it was read from.  Reading normalizes the
text, reports the first fault, bounds the size and builds the tree; an expression that was not read
counts as written in its canonical text.
-/

namespace SwitchingLogic

/-- An expression with its text, as written and normalized. -/
structure Formula where
  source : String
  normalized : String
  expr : Expr
  deriving DecidableEq

namespace Formula

def maxLength : Nat := 10000

def maxNesting : Nat := 256

def checkSize (s : List Char) : Except Error Unit :=
  if s.length > maxLength then throw (.tooComplex .expressionLength s.length maxLength)
  else if nesting 0 s > maxNesting then
    throw (.tooComplex .parenthesisNesting (nesting 0 s) maxNesting)
  else pure ()

def load (source : String) (s : List Char) : Except Error Phrase.Loaded :=
  match Phrase.Sum.read? s with
  | some sum => sum.load
  | none => throw (.malformed source .unexpectedToken)

def parse (source : String) : Except Error Formula := do
  let s := normalize source.toList
  match fault? s with
  | some fault => throw (.malformed source fault)
  | none =>
      checkSize s
      let loaded ← load source s
      pure ⟨source, String.ofList s, loaded.expr⟩

/-- The formula of an expression, in its canonical text. -/
def ofExpr (e : Expr) : Formula := ⟨e.text, e.text, e⟩

def vars (f : Formula) : List Variable := f.expr.vars.toList

def metrics (f : Formula) : Metrics := f.expr.metrics

instance : LogicFunction Formula := ⟨fun f => f.expr.eval, fun f => f.expr.vars⟩

end Formula

end SwitchingLogic
