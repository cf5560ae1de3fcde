import SwitchingLogic.Expr.Basic

/-!
# Negation normal form

Negations are carried down to the variables: a negated connective turns into its dual, double
negations vanish and negated constants are folded.  A tree that can serve as it stands is
recognised, so that it need not be built again.
-/

namespace SwitchingLogic.Expr

/-- The negation normal form of the tree, or of its negation when `positive` is false; `none` when
the tree itself serves. -/
def rebuildNnf : Expr → Bool → Option Expr
  | .var _, true => none
  | .var v, false => some (.not (.var v))
  | .const _, true => none
  | .const b, false => some (.const !b)
  | .not e, positive =>
      match e.rebuildNnf !positive with
      | some f => some f
      | none => some e
  | .binary op l r, true =>
      match l.rebuildNnf true, r.rebuildNnf true with
      | none, none => none
      | l', r' => some (.binary op (l'.getD l) (r'.getD r))
  | .binary op l r, false =>
      some (.binary op.dual ((l.rebuildNnf false).getD l) ((r.rebuildNnf false).getD r))

/-- An equivalent tree in which only variables are negated. -/
def nnf (e : Expr) : Expr := (e.rebuildNnf true).getD e

def servesAsNnf (e : Expr) : Bool := (e.rebuildNnf true).isNone

end SwitchingLogic.Expr
