import SwitchingLogic.Formula.Phrase

/-!
# Reading phrases

The reader goes through the text once, from left to right.  It keeps what it has seen of the
innermost open group, the operand that ends there if there is one, and the groups around it, which
wait for the operand that they will get when the inner one closes.
-/

namespace SwitchingLogic.Phrase

/-- What stands in a group in front of the operand that is being read. -/
structure Frame where
  /-- The sum in front of the last `+`. -/
  sum? : Option Sum
  /-- The factors since then. -/
  product? : Option Product
  /-- A `·` has followed those factors. -/
  dot : Bool
  /-- The `!` signs in front of the operand. -/
  bangs : Nat

namespace Frame

def start : Frame := ⟨none, none, false, 0⟩

def product (f : Frame) (o : Operand) : Product :=
  match f.product? with
  | none => .one (.mk f.bangs o)
  | some p => .times p f.dot (.mk f.bangs o)

def sum (f : Frame) (o : Operand) : Sum :=
  match f.sum? with
  | none => .one (f.product o)
  | some s => .plus s (f.product o)

def nextFactor (f : Frame) (o : Operand) (dot : Bool) : Frame :=
  ⟨f.sum?, some (f.product o), dot, 0⟩

def nextProduct (f : Frame) (o : Operand) : Frame :=
  ⟨some (f.sum o), none, false, 0⟩

end Frame

structure Reader where
  frame : Frame
  /-- The operand in front of the next character; it is missing where one has to follow. -/
  operand? : Option Operand
  /-- The frames of the enclosing groups, the innermost first. -/
  enclosing : List Frame

namespace Reader

def start : Reader := ⟨.start, none, []⟩

def leaf? (c : Char) : Option Operand :=
  match c with
  | '0' => some (.digit false)
  | '1' => some (.digit true)
  | _ => (Variable.ofLetter? c).map .letter

/-- Read a character where an operand has to begin. -/
def begin? (frame : Frame) (enclosing : List Frame) (c : Char) : Option Reader :=
  match c with
  | '!' => some ⟨{ frame with bangs := frame.bangs + 1 }, none, enclosing⟩
  | '(' => some ⟨.start, none, frame :: enclosing⟩
  | _ => (leaf? c).map fun o => ⟨frame, some o, enclosing⟩

def continue? (frame : Frame) (o : Operand) (enclosing : List Frame) (c : Char) : Option Reader :=
  match c with
  | '\x27' => some ⟨frame, some (.complement o), enclosing⟩
  | '+' => some ⟨frame.nextProduct o, none, enclosing⟩
  | '·' => some ⟨frame.nextFactor o true, none, enclosing⟩
  | ')' =>
      match enclosing with
      | [] => none
      | outer :: rest => some ⟨outer, some (.group (frame.sum o)), rest⟩
  | _ => begin? (frame.nextFactor o false) enclosing c

def step? (r : Reader) (c : Char) : Option Reader :=
  match r.operand? with
  | none => begin? r.frame r.enclosing c
  | some o => continue? r.frame o r.enclosing c

/-- The sum that has been read, if the text may end here. -/
def finish? (r : Reader) : Option Sum :=
  match r.operand?, r.enclosing with
  | some o, [] => some (r.frame.sum o)
  | _, _ => none

end Reader

def Sum.read? (s : List Char) : Option Sum := do
  let r ← s.foldlM Reader.step? .start
  r.finish?

end SwitchingLogic.Phrase
