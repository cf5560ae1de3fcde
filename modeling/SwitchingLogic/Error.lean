import SwitchingLogic.NormalForm

/-!
# Causes of failure

Every operation of the library that can fail says why in an `Error`; the wording of each cause is
given once, by `Error.message`.
-/

namespace SwitchingLogic

/-- What makes a formula text unreadable.  Positions count characters of the normalized text. -/
inductive FormulaFault where
  | empty
  | invalidCharacter (character : Char) (position : Nat)
  | unexpectedClosing (position : Nat)
  | unclosed (count : Nat)
  | emptyParentheses (position : Nat)
  | adjacentOperators (first second : Char) (position : Nat)
  | operatorAtBoundary (first second : Char) (position : Nat)
  | leadingOperator (operator : Char)
  | trailingOperator (operator : Char)
  | misplacedComplement (position : Nat)
  | unexpectedToken
  deriving DecidableEq, Repr

/-- The procedures that go through all rows of a truth table and so bound the number of
variables. -/
inductive Enumeration where
  | truthTable
  | twoLevelSimplification
  | branching
  | exhaustiveSearch
  | equivalenceCheck
  deriving DecidableEq, Repr

inductive Measure where
  | expressionLength
  | parenthesisNesting
  | expressionDepth
  | implicantWidth
  | grayCodeWidth
  deriving DecidableEq, Repr

inductive Error where
  | malformed (text : String) (fault : FormulaFault)
  | capacity (procedure : Enumeration) (count limit : Nat)
  | tooComplex (measure : Measure) (found limit : Nat)
  | unknownAlgorithm (name : String)
  | unsupportedSize (count : Nat)
  | invalidName (name : String)
  | unknownMethod (name : String)
  | tooManyTerms (form : NormalForm) (limit : Nat)
  deriving DecidableEq, Repr

def FormulaFault.message : FormulaFault → String
  | .empty => "the expression is empty"
  | .invalidCharacter c p => s!"invalid character '{c}' at position {p}"
  | .unexpectedClosing p => s!"closing parenthesis without opening at position {p}"
  | .unclosed n => s!"{n} unclosed parenthesis"
  | .emptyParentheses p => s!"empty parentheses at position {p}"
  | .adjacentOperators a b p => s!"adjacent operators '{a}{b}' at position {p}"
  | .operatorAtBoundary a b p => s!"operator next to a parenthesis in '{a}{b}' at position {p}"
  | .leadingOperator c => s!"leading operator '{c}'"
  | .trailingOperator c => s!"trailing operator '{c}'"
  | .misplacedComplement p => s!"complement without operand at position {p}"
  | .unexpectedToken => "unexpected token"

def Enumeration.title : Enumeration → String
  | .truthTable => "Truth table"
  | .twoLevelSimplification => "Quine-McCluskey simplification"
  | .branching => "DPLL"
  | .exhaustiveSearch => "Brute force"
  | .equivalenceCheck => "Equivalence checking"

def Measure.title : Measure → String
  | .expressionLength => "expression length"
  | .parenthesisNesting => "parenthesis nesting"
  | .expressionDepth => "expression depth"
  | .implicantWidth => "implicant width"
  | .grayCodeWidth => "Gray code width"

def Error.message : Error → String
  | .malformed text fault => s!"Invalid expression '{text}': {fault.message}"
  | .capacity procedure count limit =>
      s!"{procedure.title} supports at most {limit} variables, found {count}"
  | .tooComplex measure found limit =>
      s!"The {measure.title} ({found}) exceeds the limit of {limit}"
  | .unknownAlgorithm name => s!"Unsupported minimization algorithm '{name}'"
  | .unsupportedSize count => s!"Karnaugh maps need 2 to 6 variables, found {count}"
  | .invalidName name => s!"The name '{name}' is not a valid variable"
  | .unknownMethod name => s!"Unsupported method '{name}'"
  | .tooManyTerms form limit => s!"{form.expansionTitle} produced more than {limit} terms"

/-- The procedure applies only up to `limit` variables. -/
def checkCapacity (procedure : Enumeration) (count limit : Nat) : Except Error Unit :=
  if count > limit then throw (.capacity procedure count limit) else pure ()

end SwitchingLogic
