/-!
# Normal forms

The two normal forms of a function: a sum of products, and a product of sums, the clauses.
-/

namespace SwitchingLogic

inductive NormalForm where
  | sumOfProducts
  | productOfSums
  deriving DecidableEq, Repr

namespace NormalForm

def name : NormalForm → String
  | .sumOfProducts => "sop"
  | .productOfSums => "pos"

def expansionTitle : NormalForm → String
  | .sumOfProducts => "SOP expansion"
  | .productOfSums => "POS expansion"

def termName : NormalForm → String
  | .sumOfProducts => "product"
  | .productOfSums => "clause"

/-- What a term that fixes a variable to both values is called. -/
def conflictName : NormalForm → String
  | .sumOfProducts => "contradictory"
  | .productOfSums => "tautological"

end NormalForm

end SwitchingLogic
