import SwitchingLogic.Proofs.Analysis.Stages
import SwitchingLogic.Proofs.Circuit.Description
import SwitchingLogic.Proofs.Circuit.Locality
import SwitchingLogic.Proofs.Conversion.Limit
import SwitchingLogic.Proofs.Expr.Join
import SwitchingLogic.Proofs.Formula.Depth
import SwitchingLogic.Proofs.Formula.Leaves
import SwitchingLogic.Proofs.Formula.Unambiguous
import SwitchingLogic.Proofs.GrayCode.Neighbours
import SwitchingLogic.Proofs.Implicant.Codec
import SwitchingLogic.Proofs.Implicant.RowSets
import SwitchingLogic.Proofs.Karnaugh.Greedy
import SwitchingLogic.Proofs.Minimize.Canonical
import SwitchingLogic.Proofs.Minimize.Covers
import SwitchingLogic.Proofs.Satisfaction.Backtracking
import SwitchingLogic.Proofs.Satisfaction.Constraint
import SwitchingLogic.Proofs.Satisfaction.Equivalence
import SwitchingLogic.Proofs.Satisfaction.LocalSearch
import SwitchingLogic.Proofs.Simplify.DeMorgan
import SwitchingLogic.Proofs.Simplify.Length
import SwitchingLogic.Proofs.Simplify.Soundness
import SwitchingLogic.Proofs.Term.Display
import SwitchingLogic.Proofs.Term.States
import SwitchingLogic.Proofs.TruthTable.Rows
