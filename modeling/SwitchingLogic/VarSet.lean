import SwitchingLogic.Variable

/-!
# Sets of variables

A set of variables is a vector of fifty-two bits, one for each variable.  Two sets with the same
members are therefore equal, and the members are always listed in the order of variables.
-/

namespace SwitchingLogic

structure VarSet where
  bits : BitVec 52
  deriving DecidableEq, Hashable

namespace VarSet

def empty : VarSet := ⟨0⟩

def singleton (v : Variable) : VarSet := ⟨BitVec.twoPow 52 v.index.val⟩

def contains (s : VarSet) (v : Variable) : Bool :=
  s.bits.getLsbD v.index.val

def union (s t : VarSet) : VarSet := ⟨s.bits ||| t.bits⟩

def inter (s t : VarSet) : VarSet := ⟨s.bits &&& t.bits⟩

def diff (s t : VarSet) : VarSet := ⟨s.bits &&& ~~~t.bits⟩

def insert (s : VarSet) (v : Variable) : VarSet := s.union (singleton v)

def erase (s : VarSet) (v : Variable) : VarSet := s.diff (singleton v)

def containsAll (s t : VarSet) : Bool := s.bits &&& t.bits == t.bits

def isDisjoint (s t : VarSet) : Bool := s.bits &&& t.bits == 0

def isEmpty (s : VarSet) : Bool := s.bits == 0

def toList (s : VarSet) : List Variable := Variable.all.filter s.contains

def ofList (vs : List Variable) : VarSet := vs.foldl insert empty

def size (s : VarSet) : Nat := s.toList.length

/-- The members in braces, separated by commas. -/
def text (s : VarSet) : String :=
  "\x7b" ++ ", ".intercalate (s.toList.map fun v => v.letter.toString) ++ "\x7d"

end VarSet

end SwitchingLogic
