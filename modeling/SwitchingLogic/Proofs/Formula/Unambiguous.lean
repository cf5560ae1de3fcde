import SwitchingLogic.Proofs.Expr.Regrouped
import SwitchingLogic.Proofs.Formula.Canonical

/-!
# Unambiguous notations

What the notations tell about a tree.  A canonical text spells one sum, whose tree is the balanced
form, so that the text leaves open only how the chains are grouped.  The list notation of a tree is
not continued by that of another one, so that it can be cut into the notations of the subtrees in
one way; it leaves nothing open.
-/

namespace SwitchingLogic

theorem Connective.sign_injective : Function.Injective sign
  | .and, .and, _ => rfl
  | .or, .or, _ => rfl
  | .and, .or, same => absurd same (by decide)
  | .or, .and, same => absurd same (by decide)

namespace Expr

open Phrase

/-- Equal canonical texts spell the same sum, which has one tree. -/
theorem balance_eq_of_chars_eq {e f : Expr} (same : e.chars = f.chars) : e.balance = f.balance := by
  obtain ⟨q, textE, treesE⟩ := e.phrased_chars.sum
  obtain ⟨r, textF, treesF⟩ := f.phrased_chars.sum
  have readE : Sum.read? (Text.dropBlanks e.chars) = some q := Sum.read?_eq_some_iff.mpr textE
  have readF : Sum.read? (Text.dropBlanks e.chars) = some r :=
    Sum.read?_eq_some_iff.mpr (same ▸ textF)
  have one : q = r := Option.some.inj (readE.symm.trans readF)
  rw [← join_map_balance .or e, ← join_map_balance .or f, ← treesE, ← treesF, one]

theorem chars_eq_iff_regrouped {e f : Expr} : e.chars = f.chars ↔ e.Regrouped f :=
  ⟨fun same => .of_balance_eq (balance_eq_of_chars_eq same),
    fun same => same.render_eq .canonical none⟩

def leafChar? : Expr → Option Char
  | .var v => some v.letter
  | .const b => some (digit b)
  | _ => none

theorem isLeafChar_of_leafChar? {e : Expr} {c : Char} (leaf : e.leafChar? = some c) :
    Formula.isLeafChar c = true := by
  cases e with
  | var v =>
      cases leaf
      simp [Formula.isLeafChar, v.letter_spec.1]
  | const b =>
      cases leaf
      cases b <;> decide
  | _ => cases leaf

theorem eq_of_leafChar? {e f : Expr} {c : Char} (leafE : e.leafChar? = some c)
    (leafF : f.leafChar? = some c) : e = f := by
  have letter_ne_digit (v : Variable) (b : Bool) : v.letter ≠ digit b := by
    obtain ⟨_, _, one, zero⟩ := v.letter_spec
    cases b with
    | false => exact zero
    | true => exact one
  cases e with
  | var v =>
      cases leafE
      cases f with
      | var w => rw [Variable.letter_injective (Option.some.inj leafF)]
      | const b => exact absurd (Option.some.inj leafF).symm (letter_ne_digit v b)
      | _ => cases leafF
  | const b =>
      cases leafE
      cases f with
      | var w => exact absurd (Option.some.inj leafF) (letter_ne_digit w b)
      | const d =>
          have same : digit d = digit b := Option.some.inj leafF
          revert same
          cases b <;> cases d <;> decide
      | _ => cases leafF
  | _ => cases leafE

/-- The list notation, node by node. -/
inductive Lists : Expr → List Char → Prop where
  | leaf {e : Expr} {c : Char} (symbol : e.leafChar? = some c) : Lists e [c]
  | literal (v : Variable) : Lists (.not (.var v)) [v.letter, '\x27']
  | not {e : Expr} {s : List Char} (operand : Lists e s) :
      Lists (.not e) ('(' :: '\x27' :: ' ' :: (s ++ [')']))
  | binary (op : Connective) {l r : Expr} {s t : List Char} (left : Lists l s)
      (right : Lists r t) :
      Lists (.binary op l r) ('(' :: op.sign :: ' ' :: (s ++ ' ' :: (t ++ [')'])))

theorem lists_listChars (e : Expr) : Lists e e.listChars := by
  induction e with
  | var v => exact .leaf rfl
  | const b => exact .leaf rfl
  | not e ih =>
      cases e with
      | var v => exact .literal v
      | _ => exact .not ih
  | binary op l r ihl ihr =>
      have whole := Lists.binary op ihl ihr
      simpa [listChars] using whole

def Unprimed (s : List Char) : Prop := s.head? ≠ some '\x27'

theorem unprimed_nil : Unprimed [] := nofun

theorem unprimed_cons {c : Char} (other : c ≠ '\x27') (rest : List Char) : Unprimed (c :: rest) :=
  fun head => other (Option.some.inj head)

/-- A tree can be read off the beginning of a text, unless a prime follows that may belong to it. -/
theorem Lists.unique {e f : Expr} {a b s t : List Char} (first : Lists e a) (second : Lists f b)
    (front : Unprimed s) (back : Unprimed t) (same : a ++ s = b ++ t) : e = f ∧ s = t := by
  have leaf_ne_open {g : Expr} {c : Char} (symbol : g.leafChar? = some c) : c ≠ '(' := by
    rintro rfl
    exact absurd (isLeafChar_of_leafChar? symbol) (by decide)
  have letter_ne_open (v : Variable) : v.letter ≠ '(' := v.letter_spec.2.1
  have sign_ne_prime (op : Connective) : op.sign ≠ '\x27' := by cases op <;> decide
  have closed (s : List Char) : Unprimed (')' :: s) := unprimed_cons (by decide) s
  have spaced (s : List Char) : Unprimed (' ' :: s) := unprimed_cons (by decide) s
  induction first generalizing f b s t with
  | leaf symbol =>
      cases second with
      | leaf symbol' =>
          obtain ⟨head, tail⟩ := List.cons.inj same
          exact ⟨eq_of_leafChar? symbol (head ▸ symbol'), tail⟩
      | literal w => exact absurd (congrArg List.head? (List.cons.inj same).2) front
      | not | binary => exact absurd (List.cons.inj same).1 (leaf_ne_open symbol)
  | literal v =>
      cases second with
      | leaf symbol' => exact absurd (congrArg List.head? (List.cons.inj same).2).symm back
      | literal w =>
          obtain ⟨head, tail⟩ := List.cons.inj same
          exact ⟨by rw [Variable.letter_injective head], (List.cons.inj tail).2⟩
      | not | binary => exact absurd (List.cons.inj same).1 (letter_ne_open v)
  | not operand ih =>
      cases second with
      | leaf symbol' => exact absurd (List.cons.inj same).1.symm (leaf_ne_open symbol')
      | literal w => exact absurd (List.cons.inj same).1.symm (letter_ne_open w)
      | not operand' =>
          simp only [List.cons_append, List.append_assoc, List.cons.injEq, true_and] at same
          obtain ⟨rfl, rest⟩ := ih operand' (closed _) (closed _) same
          exact ⟨rfl, (List.cons.inj rest).2⟩
      | binary op =>
          simp only [List.cons_append, List.cons.injEq, true_and] at same
          exact absurd same.1.symm (sign_ne_prime op)
  | binary op left right ihl ihr =>
      cases second with
      | leaf symbol' => exact absurd (List.cons.inj same).1.symm (leaf_ne_open symbol')
      | literal w => exact absurd (List.cons.inj same).1.symm (letter_ne_open w)
      | not operand' =>
          simp only [List.cons_append, List.cons.injEq, true_and] at same
          exact absurd same.1 (sign_ne_prime op)
      | binary op' left' right' =>
          simp only [List.cons_append, List.append_assoc, List.cons.injEq, true_and] at same
          obtain ⟨sign, parts⟩ := same
          -- The left operand ends where its blank begins, so the right one begins at one place.
          obtain ⟨rfl, later⟩ := ihl left' (spaced _) (spaced _) parts
          obtain ⟨rfl, rest⟩ := ihr right' (closed _) (closed _) (List.cons.inj later).2
          exact ⟨by rw [Connective.sign_injective sign], (List.cons.inj rest).2⟩

theorem listChars_injective : Function.Injective listChars := by
  intro e f same
  have whole : e.listChars ++ [] = f.listChars ++ [] := congrArg (· ++ []) same
  exact ((lists_listChars e).unique (lists_listChars f) unprimed_nil unprimed_nil whole).1

/-- The canonical text determines a tree up to the grouping of its chains, and with it the value;
the list notation determines it altogether. -/
theorem text_unambiguous (e f : Expr) :
    (e.text = f.text ↔ e.Regrouped f) ∧ (e.text = f.text → ∀ s, e.eval s = f.eval s) ∧
      (e.listText = f.listText ↔ e = f) := by
  have canonical : e.text = f.text ↔ e.Regrouped f := by
    rw [text, text, String.ofList_inj, chars_eq_iff_regrouped]
  have list : e.listText = f.listText ↔ e = f := by
    rw [listText, listText, String.ofList_inj, listChars_injective.eq_iff]
  exact ⟨canonical, fun same => (canonical.mp same).eval_eq, list⟩

theorem text_unambiguous_grouped :
    let product (l r : Expr) : Expr := .binary .and l r
    let sum (l r : Expr) : Expr := .binary .or l r
    let b : Expr := .var ⟨1⟩
    let c : Expr := .not (.not (.var ⟨2⟩))
    let d : Expr := .not (.const false)
    let e : Expr := .not (sum (sum (.var ⟨0⟩) (.const true)) (product (product b c) d))
    let f : Expr := .not (sum (.var ⟨0⟩) (sum (.const true) (product b (product c d))))
    e.text = "(A + 1 + BC''0')'" ∧ e.text = f.text ∧ e.Regrouped f ∧
      (∀ s, e.eval s = f.eval s) ∧ e.listText ≠ f.listText := by
  intro product sum b c d e f
  obtain ⟨canonical, value, list⟩ := text_unambiguous e f
  have same : e.text = f.text := by decide +kernel
  have other : e ≠ f := by decide
  exact ⟨by decide +kernel, same, canonical.mp same, value same, mt list.mp other⟩

end Expr

end SwitchingLogic
