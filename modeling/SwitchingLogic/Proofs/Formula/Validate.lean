import Mathlib.Data.List.Chain
import SwitchingLogic.Formula.Validate
import SwitchingLogic.Proofs.Formula.Reader

/-!
# Faults and readability

Of what the reader has seen, two things decide whether it accepts a character: whether an operand
ends in front of it, and how many groups are open.  The checks on neighbours, on the first and on
the last character follow the one, and the count of parentheses follows the other.  A text without
fault is therefore a text that can be read.
-/

namespace SwitchingLogic

namespace Formula

open Phrase

def endsOperand (c : Char) : Bool :=
  isLeafChar c || c == '\x27' || c == ')'

theorem ne_of_isLeafChar {c d : Char} (leaf : isLeafChar c = true) (other : isLeafChar d = false) :
    c ≠ d := by
  rintro rfl
  exact Bool.noConfusion (leaf.symm.trans other)

theorem isFormulaChar_iff {c : Char} :
    isFormulaChar c = true ↔
      isLeafChar c = true ∨ c = '+' ∨ c = '·' ∨ c = '\x27' ∨ c = '!' ∨ c = '(' ∨ c = ')' := by
  simp [isFormulaChar, isConnectiveSign, or_assoc]

/-- Two characters may follow one another when an operand ends between them or begins there. -/
theorem pairFault?_eq_none_iff {a b : Char} (first : isFormulaChar a = true)
    (second : isFormulaChar b = true) (position : Nat) :
    pairFault? a b position = none ↔ endsOperand a = true ∨ startsOperand b = true := by
  rcases isFormulaChar_iff.mp first with leaf | rfl | rfl | rfl | rfl | rfl | rfl
  · have plus := ne_of_isLeafChar leaf (d := '+') (by decide)
    have dot := ne_of_isLeafChar leaf (d := '·') (by decide)
    have bang := ne_of_isLeafChar leaf (d := '!') (by decide)
    have group := ne_of_isLeafChar leaf (d := '(') (by decide)
    simp [pairFault?, isConnectiveSign, endsOperand, leaf, plus, dot, bang, group]
  all_goals
    rcases isFormulaChar_iff.mp second with leaf | rfl | rfl | rfl | rfl | rfl | rfl
    · have plus := ne_of_isLeafChar leaf (d := '+') (by decide)
      have dot := ne_of_isLeafChar leaf (d := '·') (by decide)
      have close := ne_of_isLeafChar leaf (d := ')') (by decide)
      have prime := ne_of_isLeafChar leaf (d := '\x27') (by decide)
      simp [pairFault?, isConnectiveSign, startsOperand, leaf, plus, dot, close, prime]
    all_goals simp [pairFault?, isConnectiveSign, endsOperand, startsOperand, isLeafChar]

/-- An operand ends between two neighbours or begins there. -/
def Fits (a b : Char) : Prop := endsOperand a = true ∨ startsOperand b = true

theorem neighbourFault?_eq_none_iff {s : List Char} (chars : ∀ c ∈ s, isFormulaChar c = true)
    (position : Nat) : neighbourFault? position s = none ↔ s.IsChain Fits := by
  induction s generalizing position with
  | nil => simp [neighbourFault?]
  | cons a rest ih =>
      cases rest with
      | nil => simp [neighbourFault?]
      | cons b rest =>
          rw [List.forall_mem_cons] at chars
          rw [neighbourFault?, Option.orElse_eq_orElse, Option.orElse_eq_or, Option.or_eq_none_iff,
            pairFault?_eq_none_iff chars.1 (chars.2 b List.mem_cons_self), ih chars.2,
            List.isChain_cons_cons, Fits]

def openBehind (c : Char) (opened : Nat) : Nat :=
  if c = '(' then opened + 1 else if c = ')' then opened - 1 else opened

theorem parenthesisFault?_cons_eq_none_iff (position opened : Nat) (c : Char) (rest : List Char) :
    parenthesisFault? position opened (c :: rest) = none ↔
      (c = ')' → opened ≠ 0) ∧
        parenthesisFault? (position + 1) (openBehind c opened) rest = none := by
  by_cases group : c = '('
  · subst group
    rw [parenthesisFault?, openBehind, if_pos rfl, and_iff_right (nofun : '(' = ')' → _)]
  · by_cases close : c = ')'
    · subst close
      rw [parenthesisFault?, openBehind, if_neg group, if_pos rfl]
      by_cases closed : opened = 0
      · simp [closed]
      · simp [closed]
    · rw [parenthesisFault?, openBehind, if_neg group, if_neg close,
        and_iff_right fun same => absurd same close]
      · exact group
      · exact close

end Formula

namespace Phrase.Reader

open Formula

/-! ## One character -/

theorem isSome_leaf? (c : Char) : (leaf? c).isSome = isLeafChar c := by
  unfold leaf?
  split
  · rfl
  · rfl
  · rename_i notZero notOne
    rw [Option.isSome_map, Variable.isSome_ofLetter?, isLeafChar, beq_false_of_ne notZero,
      beq_false_of_ne notOne, Bool.or_false, Bool.or_false]

/-- What reading a character asks for, and what it does to the two things that decide about the
next one. -/
structure Reads (r : Reader) (c : Char) (r' : Reader) : Prop where
  fits : r.operand?.isSome = true ∨ startsOperand c = true
  closes : c = ')' → r.enclosing ≠ []
  formulaChar : isFormulaChar c = true
  behind : r'.operand?.isSome = endsOperand c
  opened : r'.enclosing.length = openBehind c r.enclosing.length

theorem reads_begin? {f : Frame} {operand? : Option Operand} {enclosing : List Frame} {c : Char}
    {f' : Frame} {r' : Reader} (begun : begin? f enclosing c = some r') :
    Reads ⟨f', operand?, enclosing⟩ c r' := by
  unfold begin? at begun
  split at begun
  · cases begun
    exact ⟨Or.inr rfl, nofun, rfl, rfl, rfl⟩
  · cases begun
    exact ⟨Or.inr rfl, nofun, rfl, rfl, rfl⟩
  · obtain ⟨o, leaf, rfl⟩ := Option.map_eq_some_iff.mp begun
    have isLeaf : isLeafChar c = true := by rw [← isSome_leaf?, leaf, Option.isSome_some]
    have group := ne_of_isLeafChar isLeaf (d := '(') (by decide)
    have close := ne_of_isLeafChar isLeaf (d := ')') (by decide)
    refine ⟨Or.inr ?_, fun same => absurd same close, isFormulaChar_iff.mpr (Or.inl isLeaf), ?_, ?_⟩
    · simp [startsOperand, isLeaf]
    · simp [endsOperand, isLeaf]
    · simp [openBehind, group, close]

theorem reads_step? {r r' : Reader} {c : Char} (read : r.step? c = some r') : Reads r c r' := by
  obtain ⟨frame, operand?, enclosing⟩ := r
  cases operand? with
  | none => exact reads_begin? read
  | some o =>
      simp only [step?, continue?] at read
      split at read
      · cases read
        exact ⟨Or.inl rfl, nofun, rfl, rfl, rfl⟩
      · cases read
        exact ⟨Or.inl rfl, nofun, rfl, rfl, rfl⟩
      · cases read
        exact ⟨Or.inl rfl, nofun, rfl, rfl, rfl⟩
      · split at read
        · cases read
        · cases read
          exact ⟨Or.inl rfl, fun _ => List.cons_ne_nil _ _, rfl, rfl, rfl⟩
      · exact reads_begin? read

theorem exists_begin? {c : Char} (starts : startsOperand c = true) (f : Frame)
    (enclosing : List Frame) : ∃ r', begin? f enclosing c = some r' := by
  unfold begin?
  split
  · exact ⟨_, rfl⟩
  · exact ⟨_, rfl⟩
  · rename_i notBang notGroup
    have isLeaf : isLeafChar c = true := by
      rw [startsOperand, beq_false_of_ne notBang, beq_false_of_ne notGroup, Bool.or_false,
        Bool.or_false] at starts
      exact starts
    rw [← isSome_leaf?] at isLeaf
    obtain ⟨o, leaf⟩ := Option.isSome_iff_exists.mp isLeaf
    exact ⟨_, by rw [leaf, Option.map_some]⟩

theorem exists_step? {r : Reader} {c : Char} (formulaChar : isFormulaChar c = true)
    (fits : r.operand?.isSome = true ∨ startsOperand c = true)
    (closes : c = ')' → r.enclosing ≠ []) : ∃ r', r.step? c = some r' := by
  obtain ⟨frame, operand?, enclosing⟩ := r
  cases operand? with
  | none => exact exists_begin? (fits.resolve_left Bool.false_ne_true) frame enclosing
  | some o =>
      simp only [step?, continue?]
      split
      · exact ⟨_, rfl⟩
      · exact ⟨_, rfl⟩
      · exact ⟨_, rfl⟩
      · cases enclosing with
        | nil => exact absurd rfl (closes rfl)
        | cons outer rest => exact ⟨_, rfl⟩
      · rename_i notPrime notPlus notDot notClose
        refine exists_begin? ?_ _ _
        rcases isFormulaChar_iff.mp formulaChar with leaf | rfl | rfl | rfl | rfl | rfl | rfl
        · simp [startsOperand, leaf]
        · exact absurd rfl notPlus
        · exact absurd rfl notDot
        · exact absurd rfl notPrime
        · rfl
        · rfl
        · exact absurd rfl notClose

/-! ## A whole text -/

theorem isSome_finish? (r : Reader) :
    r.finish?.isSome = true ↔ r.operand?.isSome = true ∧ r.enclosing = [] := by
  unfold finish?
  split
  · rename_i operand outside
    simp [operand, outside]
  · rename_i other
    refine iff_of_false Bool.false_ne_true fun both => ?_
    obtain ⟨o, operand⟩ := Option.isSome_iff_exists.mp both.1
    exact other o operand both.2

/-- Behind a character `a` the rest of a text is read to its end when no two neighbours exclude each
other, the parentheses match and an operand ends last. -/
theorem exists_finish?_iff {s : List Char} (chars : ∀ c ∈ s, isFormulaChar c = true) {r : Reader}
    {a : Char} (first : isFormulaChar a = true) (behind : r.operand?.isSome = endsOperand a)
    (position : Nat) :
    (∃ r', s.foldlM step? r = some r' ∧ r'.finish?.isSome = true) ↔
      (a :: s).IsChain Fits ∧
        parenthesisFault? position r.enclosing.length s = none ∧
          endsOperand (s.getLastD a) = true := by
  induction s generalizing r a position with
  | nil =>
      have stay : (∃ r', [].foldlM step? r = some r' ∧ r'.finish?.isSome = true) ↔
          r.finish?.isSome = true := by simp
      rw [stay, isSome_finish?, behind, ← List.length_eq_zero_iff]
      simp [parenthesisFault?, and_comm]
  | cons c rest ih =>
      have formulaChar := chars c List.mem_cons_self
      rw [List.isChain_cons_cons, Fits, ← behind, parenthesisFault?_cons_eq_none_iff,
        List.getLastD_cons, List.foldlM_cons]
      cases read : r.step? c with
      | none =>
          refine iff_of_false (by simp) ?_
          rintro ⟨⟨fits, _⟩, ⟨closes, _⟩, _⟩
          obtain ⟨r', read'⟩ := exists_step? (r := r) formulaChar fits fun same outside =>
            closes same (by rw [outside, List.length_nil])
          cases read.symm.trans read'
      | some next =>
          have step := reads_step? read
          have later := ih (fun d member => chars d (List.mem_cons_of_mem _ member)) formulaChar
            step.behind (position + 1)
          rw [step.opened] at later
          refine later.trans ?_
          have closes (same : c = ')') : r.enclosing.length ≠ 0 := fun outside =>
            step.closes same (List.length_eq_zero_iff.mp outside)
          rw [and_iff_right step.fits, and_iff_right closes]

theorem isFormulaChar_of_foldlM {s : List Char} {r r' : Reader}
    (read : s.foldlM step? r = some r') : ∀ c ∈ s, isFormulaChar c = true := by
  induction s generalizing r with
  | nil => exact fun c member => (List.not_mem_nil member).elim
  | cons first rest ih =>
      rw [List.foldlM_cons] at read
      obtain ⟨next, step, read⟩ := Option.bind_eq_some_iff.mp read
      rw [List.forall_mem_cons]
      exact ⟨(reads_step? step).formulaChar, ih read⟩

end Phrase.Reader

namespace Formula

open Phrase

theorem characterFault?_eq_none_iff (s : List Char) :
    characterFault? s = none ↔ ∀ c ∈ s, isFormulaChar c = true := by
  simp only [characterFault?, List.findSome?_eq_none_iff, Prod.forall,
    List.mk_mem_zipIdx_iff_getElem?, ite_eq_left_iff, reduceCtorEq, imp_false, not_not]
  constructor
  · intro allowed c member
    obtain ⟨place, inside, rfl⟩ := List.getElem_of_mem member
    exact allowed _ place (List.getElem?_eq_getElem inside)
  · intro allowed c place found
    exact allowed c (List.mem_of_getElem? found)

/-- The text of a formula does not end with an opening parenthesis. -/
theorem getLastD_ne_of_parenthesisFault? {s : List Char} {position opened : Nat}
    (matched : parenthesisFault? position opened s = none) {a : Char}
    (start : a = '(' → opened ≠ 0) : s.getLastD a ≠ '(' := by
  induction s generalizing position opened a with
  | nil =>
      intro last
      refine start last ?_
      simpa [parenthesisFault?] using matched
  | cons c rest ih =>
      rw [parenthesisFault?_cons_eq_none_iff] at matched
      rw [List.getLastD_cons]
      refine ih matched.2 ?_
      rintro rfl
      exact Nat.succ_ne_zero opened

theorem leadingFault?_eq_none_iff {first : Char} (formulaChar : isFormulaChar first = true)
    (notClose : first ≠ ')') : leadingFault? first = none ↔ startsOperand first = true := by
  rcases isFormulaChar_iff.mp formulaChar with leaf | rfl | rfl | rfl | rfl | rfl | rfl
  · have plus := ne_of_isLeafChar leaf (d := '+') (by decide)
    have dot := ne_of_isLeafChar leaf (d := '·') (by decide)
    have prime := ne_of_isLeafChar leaf (d := '\x27') (by decide)
    simp [leadingFault?, isConnectiveSign, startsOperand, leaf, plus, dot, prime]
  · decide
  · decide
  · decide
  · decide
  · decide
  · exact absurd rfl notClose

theorem trailingFault?_eq_none_iff {last : Char} (formulaChar : isFormulaChar last = true)
    (notGroup : last ≠ '(') : trailingFault? last = none ↔ endsOperand last = true := by
  rcases isFormulaChar_iff.mp formulaChar with leaf | rfl | rfl | rfl | rfl | rfl | rfl
  · have plus := ne_of_isLeafChar leaf (d := '+') (by decide)
    have dot := ne_of_isLeafChar leaf (d := '·') (by decide)
    have bang := ne_of_isLeafChar leaf (d := '!') (by decide)
    simp [trailingFault?, isConnectiveSign, endsOperand, leaf, plus, dot, bang]
  · decide
  · decide
  · decide
  · decide
  · exact absurd rfl notGroup
  · decide

theorem exists_read?_iff (s : List Char) :
    (∃ sum, Sum.read? s = some sum) ↔
      ∃ r, s.foldlM Reader.step? .start = some r ∧ r.finish?.isSome = true := by
  simp only [Sum.read?, Option.bind_eq_bind, Option.bind_eq_some_iff, Option.isSome_iff_exists]
  constructor
  · rintro ⟨sum, r, run, finished⟩
    exact ⟨r, run, sum, finished⟩
  · rintro ⟨r, run, sum, finished⟩
    exact ⟨sum, r, run, finished⟩

/-- A text without fault is one that can be read. -/
theorem fault?_eq_none_iff (s : List Char) :
    fault? s = none ↔ ∃ sum, Sum.read? s = some sum := by
  rw [exists_read?_iff]
  cases s with
  | nil => exact iff_of_false nofun (by rintro ⟨r, run, finished⟩; cases run; cases finished)
  | cons first rest =>
      simp only [fault?, Option.orElse_eq_orElse, Option.orElse_eq_or, Option.or_eq_none_iff,
        characterFault?_eq_none_iff]
      by_cases chars : ∀ c ∈ first :: rest, isFormulaChar c = true
      · -- A sign `+` in front of the text makes its first character one of a pair.
        have whole := Reader.exists_finish?_iff chars (r := .start) (a := '+') rfl rfl 0
        have start := chars first List.mem_cons_self
        have last := chars (rest.getLastD first) List.getLastD_mem_cons
        rw [and_iff_right chars, whole, List.isChain_cons_cons, Fits, or_iff_right (by decide),
          List.getLastD_cons, neighbourFault?_eq_none_iff chars]
        have leading (matched : parenthesisFault? 0 0 (first :: rest) = none) :=
          leadingFault?_eq_none_iff start fun same =>
            ((parenthesisFault?_cons_eq_none_iff _ _ _ _).mp matched).1 same rfl
        have trailing (matched : parenthesisFault? 0 0 (first :: rest) = none) :=
          trailingFault?_eq_none_iff last
            (List.getLastD_cons (a := '+') ▸ getLastD_ne_of_parenthesisFault? matched nofun)
        constructor
        · rintro ⟨matched, starts, ends, chain⟩
          exact ⟨⟨(leading matched).mp starts, chain⟩, matched, (trailing matched).mp ends⟩
        · rintro ⟨⟨starts, chain⟩, matched, ends⟩
          exact ⟨matched, (leading matched).mpr starts, (trailing matched).mpr ends, chain⟩
      · refine iff_of_false (fun all => chars all.1) ?_
        rintro ⟨r, run, _⟩
        exact chars (Reader.isFormulaChar_of_foldlM run)

end Formula

end SwitchingLogic
