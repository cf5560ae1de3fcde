import SwitchingLogic.Error
import SwitchingLogic.Text.Blank

/-!
# Variables

A variable is named by one letter.  There are fifty-two of them, in a fixed order: the upper-case
letters first, then the lower-case ones.  This order rules the columns of truth tables, the axes
of Karnaugh maps and every list of variables that the library produces.
-/

namespace SwitchingLogic

/-- A Boolean variable, known by its place in the order of all variables. -/
structure Variable where
  index : Fin 52
  deriving DecidableEq, Hashable, Repr

namespace Variable

def all : List Variable :=
  (List.finRange 52).map Variable.mk

def letter (v : Variable) : Char :=
  if v.index.val < 26 then Char.ofNat ('A'.toNat + v.index.val)
  else Char.ofNat ('a'.toNat + (v.index.val - 26))

def ofLetter? (c : Char) : Option Variable :=
  let n := c.toNat
  if h : 'A'.toNat ≤ n ∧ n ≤ 'Z'.toNat then
    some ⟨n - 65, by
      have upper : n ≤ 90 := h.2
      omega⟩
  else if h : 'a'.toNat ≤ n ∧ n ≤ 'z'.toNat then
    some ⟨n - 71, by
      have lower : 97 ≤ n := h.1
      have upper : n ≤ 122 := h.2
      omega⟩
  else none

def ofChar (c : Char) : Except Error Variable :=
  match ofLetter? c with
  | some v => .ok v
  | none => .error (.invalidName c.toString)

/-- Read a name: one letter, with white space around it allowed. -/
def read (name : String) : Except Error Variable :=
  match Text.trim name.toList with
  | [c] => ofChar c
  | _ => .error (.invalidName name)

def isSeparator (c : Char) : Bool :=
  c == ' ' || c == ',' || c == ';' || c == '\t'

/-- Read a list of names, glued together or separated.  Order and repetitions are kept. -/
def readList (names : String) : Except Error (List Variable) :=
  (names.toList.filter fun c => !isSeparator c).mapM ofChar

def letters (vs : List Variable) : String :=
  String.ofList (vs.map letter)

end Variable

end SwitchingLogic
