/-!
# The grammar of formulas

The grammar of normalized formulas, rule by rule, and its two readings.  A rule derives the texts
that it can be expanded to; this is the meaning of the grammar as a description of formulas.  A
matcher goes through a text instead: it takes the first alternative that matches, repeats as often
as possible, and never takes a choice back.
-/

namespace SwitchingLogic.Formula.Grammar

inductive Rule where
  | expr
  | disj
  | conj
  | factor
  | neg
  | prime
  | primary
  | group
  | bt
  | bf
  | lit

/-- What a rule may stand for. -/
inductive Body where
  | sign (c : Char)
  | letter
  | finish
  | rule (r : Rule)
  | seq (first second : Body)
  | choice (first second : Body)
  | optional (body : Body)
  | many (body : Body)

def Rule.body : Rule → Body
  | .expr => .seq (.rule .disj) .finish
  | .disj => .seq (.rule .conj) (.many (.seq (.sign '+') (.rule .conj)))
  | .conj => .seq (.rule .factor) (.many (.seq (.optional (.sign '·')) (.rule .factor)))
  | .factor => .seq (.many (.rule .neg)) (.seq (.rule .primary) (.many (.rule .prime)))
  | .neg => .sign '!'
  | .prime => .sign '\x27'
  | .primary => .choice (.rule .group) (.choice (.rule .bt) (.choice (.rule .bf) (.rule .lit)))
  | .group => .seq (.sign '(') (.seq (.rule .disj) (.sign ')'))
  | .bt => .sign '1'
  | .bf => .sign '0'
  | .lit => .letter

/-- The texts that a body can be expanded to. -/
inductive Derives : Body → List Char → Prop where
  | sign (c : Char) : Derives (.sign c) [c]
  | letter {c : Char} (alpha : c.isAlpha = true) : Derives .letter [c]
  | finish : Derives .finish []
  | rule {r : Rule} {s : List Char} (body : Derives r.body s) : Derives (.rule r) s
  | seq {a b : Body} {s t : List Char} (first : Derives a s) (second : Derives b t) :
      Derives (.seq a b) (s ++ t)
  | choiceFirst {a b : Body} {s : List Char} (first : Derives a s) : Derives (.choice a b) s
  | choiceSecond {a b : Body} {s : List Char} (second : Derives b s) : Derives (.choice a b) s
  | absent {a : Body} : Derives (.optional a) []
  | present {a : Body} {s : List Char} (body : Derives a s) : Derives (.optional a) s
  | done {a : Body} : Derives (.many a) []
  | more {a : Body} {s t : List Char} (body : Derives a s) (rest : Derives (.many a) t) :
      Derives (.many a) (s ++ t)

/-- What comes of matching a body at the beginning of a text: the rest of the text, or nothing if
the body does not match. -/
inductive Matches : Body → List Char → Option (List Char) → Prop where
  | sign (c : Char) (rest : List Char) : Matches (.sign c) (c :: rest) (some rest)
  | notSign {c : Char} {s : List Char} (other : s.head? ≠ some c) : Matches (.sign c) s none
  | letter {c : Char} (rest : List Char) (alpha : c.isAlpha = true) :
      Matches .letter (c :: rest) (some rest)
  | notLetter {s : List Char} (other : ∀ c ∈ s.head?, c.isAlpha = false) : Matches .letter s none
  | finish : Matches .finish [] (some [])
  | notFinish (c : Char) (rest : List Char) : Matches .finish (c :: rest) none
  | rule {r : Rule} {s : List Char} {out : Option (List Char)} (body : Matches r.body s out) :
      Matches (.rule r) s out
  | seq {a b : Body} {s t : List Char} {out : Option (List Char)} (first : Matches a s (some t))
      (second : Matches b t out) : Matches (.seq a b) s out
  | notSeq {a b : Body} {s : List Char} (first : Matches a s none) : Matches (.seq a b) s none
  | choiceFirst {a b : Body} {s t : List Char} (first : Matches a s (some t)) :
      Matches (.choice a b) s (some t)
  | choiceSecond {a b : Body} {s : List Char} {out : Option (List Char)}
      (first : Matches a s none) (second : Matches b s out) : Matches (.choice a b) s out
  | present {a : Body} {s t : List Char} (body : Matches a s (some t)) :
      Matches (.optional a) s (some t)
  | absent {a : Body} {s : List Char} (body : Matches a s none) :
      Matches (.optional a) s (some s)
  | more {a : Body} {s t : List Char} {out : Option (List Char)} (body : Matches a s (some t))
      (rest : Matches (.many a) t out) : Matches (.many a) s out
  | done {a : Body} {s : List Char} (body : Matches a s none) : Matches (.many a) s (some s)

end SwitchingLogic.Formula.Grammar
