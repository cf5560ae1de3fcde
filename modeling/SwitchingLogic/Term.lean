import SwitchingLogic.Expr.Join

/-!
# Terms

A term fixes some variables, each to true or to false, and leaves the others free.  Read as a
product it is the conjunction of its literals; read as a sum it is their disjunction, a clause.
Conjoining two terms can fix a variable to both values; such a term is in conflict and holds in no
state.
-/

namespace SwitchingLogic

/-- The variables fixed to true and those fixed to false. -/
structure Term where
  positive : VarSet
  negative : VarSet
  deriving DecidableEq, Hashable

namespace Term

def free : Term := ⟨VarSet.empty, VarSet.empty⟩

/-- Fix a variable, in place of what it was fixed to before. -/
def set (t : Term) (v : Variable) (value : Bool) : Term :=
  if value then ⟨t.positive.insert v, t.negative.erase v⟩
  else ⟨t.positive.erase v, t.negative.insert v⟩

/-- Fix a variable in addition to what it was fixed to before. -/
def restrict (t : Term) (v : Variable) (value : Bool) : Term :=
  if value then ⟨t.positive.insert v, t.negative⟩ else ⟨t.positive, t.negative.insert v⟩

def literal (v : Variable) (value : Bool) : Term := free.set v value

def fixes (t : Term) (v : Variable) (value : Bool) : Bool :=
  if value then t.positive.contains v else t.negative.contains v

def hasConflict (t : Term) : Bool := !t.positive.isDisjoint t.negative

def isFree (t : Term) : Bool := t.positive.isEmpty && t.negative.isEmpty

def conjoin (s t : Term) : Term := ⟨s.positive.union t.positive, s.negative.union t.negative⟩

def negateAll (t : Term) : Term := ⟨t.negative, t.positive⟩

def containsState (t : Term) (s : State) : Bool :=
  s.active.containsAll t.positive && s.active.isDisjoint t.negative

/-- No variable is fixed to different values by the two terms. -/
def overlaps (s t : Term) : Bool :=
  s.positive.isDisjoint t.negative && s.negative.isDisjoint t.positive

/-- Every literal of the first term is one of the second, which is then the narrower one. -/
def contains (s t : Term) : Bool :=
  t.positive.containsAll s.positive && t.negative.containsAll s.negative

def vars (t : Term) : VarSet := t.positive.union t.negative

instance : LogicFunction Term := ⟨containsState, vars⟩

def literalCount (t : Term) : Nat := t.positive.size + t.negative.size

/-- The literals in the order of variables; of a conflict, the positive one comes first. -/
def literals (t : Term) : List (Variable × Bool) :=
  t.vars.toList.flatMap fun v =>
    (if t.positive.contains v then [(v, true)] else []) ++
      (if t.negative.contains v then [(v, false)] else [])

def joined (op : Connective) (t : Term) : Expr :=
  Expr.join op (t.literals.map fun (v, value) => Expr.literal v value)

def toProduct (t : Term) : Expr := t.joined .and

def toSum (t : Term) : Expr := t.joined .or

/-- The place of a variable in the order of display: true, false, free. -/
def rank (t : Term) (v : Variable) : Nat :=
  if t.positive.contains v then 0 else if t.negative.contains v then 1 else 2

/-- Compare two terms by the places of the listed variables, the first difference deciding. -/
def compareOn (s t : Term) : List Variable → Ordering
  | [] => .eq
  | v :: rest => (compare (s.rank v) (t.rank v)).then (compareOn s t rest)

def displayOrder (s t : Term) : Ordering := compareOn s t Variable.all

/-- The order of lists of terms: terms with fewer literals first, then by display order. -/
def sizeOrder (s t : Term) : Ordering :=
  (compare s.literalCount t.literalCount).then (displayOrder s t)

def sort (ts : List Term) : List Term :=
  ts.mergeSort fun s t => (sizeOrder s t).isLE

/-- Fix the variables of a list, in turn, by the characters of a text: `0` and `1` fix the next
variable, `-` skips one, and blanks between them are ignored. -/
def readOnto (description : String) : Term → List Char → List Variable → Except Error Term
  | t, [], _ => .ok t
  | t, c :: rest, vs =>
      if c = ' ' ∨ c = '\t' then readOnto description t rest vs
      else if c = '-' then readOnto description t rest vs.tail
      else if c = '0' ∨ c = '1' then
        match vs with
        | [] => .error (.invalidName description)
        | v :: vs => readOnto description (t.set v (c = '1')) rest vs
      else .error (.invalidName description)

def read (description : String) (vs : List Variable) : Except Error Term :=
  readOnto description free description.toList vs

end Term

end SwitchingLogic
