import SwitchingLogic.Proofs.Formula.Canonical

/-!
# Reading programming text

In the programming notation a sign or a parenthesis stands between any two letters, so none of its
words names an operation and normalizing replaces its signs one by one.  Negations of leaves move
behind them, the others stay; either way they are spelled as factors.  What is read is therefore the
tree with its chains balanced and all its negations kept.
-/

namespace SwitchingLogic

namespace Phrase

def Product.appendDotted (p : Product) : Product → Product
  | .one f => .times p true f
  | .times q dot f => .times (p.appendDotted q) dot f

theorem Product.text_appendDotted (p q : Product) :
    (p.appendDotted q).text = p.text ++ '·' :: q.text := by
  cases q with
  | one f => simp [appendDotted, text]
  | times q dot f => simp [appendDotted, text, text_appendDotted p q]

theorem Product.trees_appendDotted (p q : Product) :
    (p.appendDotted q).trees = p.trees ++ q.trees := by
  cases q with
  | one f => rfl
  | times q dot f => rw [appendDotted, trees, trees, trees_appendDotted p q, List.append_assoc]

end Phrase

namespace Formula

def plainSign (c : Char) : Char :=
  if c = '&' ∨ c = '*' ∨ c = '∧' ∨ c = '⋅' then '·'
  else if c = '|' ∨ c = '∨' then '+'
  else if c = '\u0305' ∨ c = '’' ∨ c = '′' then '\x27'
  else c

def separates (c : Char) : Bool := !Text.isWordChar c && c != '&' && c != '|'

def Apart (c d : Char) : Prop := separates c = true ∨ separates d = true

instance : DecidableRel Apart := fun c d =>
  inferInstanceAs (Decidable (separates c = true ∨ separates d = true))

theorem isChain_apart_append {s t : List Char} {c : Char} (front : s.IsChain Apart)
    (back : t.IsChain Apart) (sign : separates c = true) : (s ++ c :: t).IsChain Apart := by
  refine List.isChain_append.mpr ⟨front, ?_, ?_⟩
  · refine List.isChain_cons.mpr ⟨fun d _ => Or.inl sign, back⟩
  · rintro d _ e head
    cases head
    exact Or.inr sign

/-- Without neighbours that belong together there is no word of an operation. -/
theorem replaceWords_of_apart {s : List Char} (apart : s.IsChain Apart) : replaceWords s = s := by
  refine replaceWords_eq_self fun run listed => ?_
  have inside : run <:+: s := by
    have whole := List.infix_of_mem_flatten listed
    rwa [Text.runs, List.flatten_splitBy] at whole
  have chain : run.IsChain Apart := apart.infix inside
  have other (word : String) (together : ¬ word.toList.IsChain Apart) : run ≠ word.toList := by
    rintro rfl
    exact together chain
  rw [wordSign, if_neg (other "AND" ?_), if_neg (other "OR" ?_), if_neg (other "NOT" ?_)]
  all_goals decide

/-- Without neighbours that belong together every sign is replaced on its own. -/
theorem replaceSigns_of_apart {s : List Char} (apart : s.IsChain Apart) :
    replaceSigns s = s.map plainSign := by
  fun_induction replaceSigns s with
  | case1 => rfl
  | case2 rest ih =>
      obtain ⟨together, _⟩ := List.isChain_cons_cons.mp apart
      exact absurd together (by decide)
  | case3 rest ih =>
      obtain ⟨together, _⟩ := List.isChain_cons_cons.mp apart
      exact absurd together (by decide)
  | case4 c rest _ _ sign ih =>
      rw [ih apart.tail]
      rfl

theorem plainSign_letter (v : Variable) : plainSign v.letter = v.letter := by
  obtain ⟨index⟩ := v
  revert index
  decide

theorem isChain_apart_grouped {s : List Char} (apart : s.IsChain Apart) (needed : Bool) :
    (Expr.grouped needed s).IsChain Apart := by
  cases needed with
  | false => exact apart
  | true =>
      have opened : ('(' :: s).IsChain Apart :=
        isChain_apart_append List.isChain_nil apart (by decide)
      exact isChain_apart_append opened List.isChain_nil (by decide)

/-- In the programming notation no two neighbours belong together. -/
theorem isChain_apart_render (e : Expr) (parent : Option Connective) :
    (e.render .programming parent).IsChain Apart := by
  induction e generalizing parent with
  | var v => exact List.isChain_singleton _
  | const b => exact List.isChain_singleton _
  | not e ih =>
      exact isChain_apart_append List.isChain_nil (isChain_apart_grouped (ih none) _) (by decide)
  | binary op l r ihl ihr =>
      have signed (c : Char) : (l.render .programming (some op) ++ ' ' :: ([c] ++
          ' ' :: r.render .programming (some op))).IsChain Apart :=
        isChain_apart_append (ihl _)
          (isChain_apart_append (List.isChain_singleton c) (ihr _) (by decide)) (by decide)
      refine isChain_apart_grouped ?_ _
      rw [List.append_assoc]
      cases op with
      | and => exact signed '&'
      | or => exact signed '|'

/-- The text without blanks, with its signs replaced. -/
def polish (s : List Char) : List Char := Text.dropBlanks (s.map plainSign)

theorem polish_append (s t : List Char) : polish (s ++ t) = polish s ++ polish t := by
  rw [polish, List.map_append, Expr.Text.dropBlanks_append]
  rfl

theorem polish_grouped (needed : Bool) (s : List Char) :
    polish (Expr.grouped needed s) = Expr.grouped needed (polish s) := by
  cases needed with
  | false => rfl
  | true =>
      rw [Expr.grouped, if_pos rfl, ← List.singleton_append, polish_append, polish_append]
      rfl

end Formula

/-- The programming notation with the signs of normalized formulas and without blanks. -/
def Style.plain : Style := ⟨['·'], ['+'], ['!'], false⟩

namespace Formula

theorem polish_render (e : Expr) (parent : Option Connective) :
    polish (e.render .programming parent) = e.render .plain parent := by
  induction e generalizing parent with
  | var v =>
      have kept : Text.isBlank v.letter = false := Expr.isBlank_letter v
      simp [Expr.render, polish, plainSign_letter, Text.dropBlanks, kept]
  | const b => cases b <;> rfl
  | not e ih =>
      have whole := polish_append ['!'] (Expr.grouped (!e.isAtomic) (e.render .programming none))
      rw [polish_grouped, ih] at whole
      exact whole
  | binary op l r ihl ihr =>
      have sign : polish (Style.programming.sign op) = Style.plain.sign op := by
        cases op <;> decide
      rw [Expr.render, polish_grouped, polish_append, polish_append, ihl, ihr, sign]
      rfl

/-- Normalizing programming text replaces its signs and then moves the negations of leaves. -/
theorem normalize_programming (e : Expr) :
    normalize (e.render .programming none) = complementLeaves (e.render .plain none) := by
  have apart := isChain_apart_render e none
  rw [normalize, replaceWords_of_apart apart, replaceSigns_of_apart apart, ← polish_render]
  rfl

end Formula

namespace Expr

open Phrase Formula

/-- The normalized programming text of a tree spells the phrases of the tree. -/
theorem written (e : Expr) :
    e.Phrased (complementLeaves (grouped (!e.isAtomic) (e.render .plain none)))
      (complementLeaves (e.render .plain (some .and)))
      (complementLeaves (e.render .plain none)) := by
  induction e with
  | var v =>
      have sign : v.letter ≠ '!' := (Reader.startsOperand_letter v).2
      exact .of_atomic rfl (f := .mk 0 (.letter v)) (complementLeaves_cons sign []).symm
        (balance_var v).symm
  | const b =>
      exact .of_atomic rfl (f := .mk 0 (.digit b)) (by cases b <;> rfl) (balance_const b).symm
  | not e ih =>
      obtain ⟨f, text, tree⟩ := ih.factor
      obtain ⟨f', text', tree', _⟩ := exists_factor_not f text
      exact .of_atomic rfl text' (by rw [tree', tree, balance_not])
  | binary op l r ihl ihr =>
      cases op with
      | and =>
          obtain ⟨p, textL, treesL⟩ := ihl.product
          obtain ⟨p', textR, treesR⟩ := ihr.product
          have sign := complementLeaves_append_cons (l.render .plain (some .and))
            (r.render .plain (some .and)) (c := '·') (by decide) (by decide)
          rw [isAtomic, Bool.not_false, complementLeaves_grouped]
          refine .of_product (p := p.appendDotted p') ?_ ?_
          · rw [Product.text_appendDotted, textL, textR, ← sign]
            simp [render, grouped, Style.sign, Style.plain]
          · rw [Product.trees_appendDotted, treesL, treesR, operands_binary, List.map_append]
      | or =>
          obtain ⟨q, textL, treesL⟩ := ihl.sum
          obtain ⟨q', textR, treesR⟩ := ihr.sum
          have sign := complementLeaves_append_cons (l.render .plain none) (r.render .plain none)
            (c := '+') (by decide) (by decide)
          have below : complementLeaves ((binary .or l r).render .plain (some .and)) =
              grouped true (complementLeaves ((binary .or l r).render .plain none)) :=
            complementLeaves_grouped _
          rw [isAtomic, Bool.not_false, complementLeaves_grouped, below]
          refine .of_sum (q := q.append q') ?_ ?_
          · rw [Sum.text_append, textL, textR, ← sign, ← render_or .plain l, ← render_or .plain r]
            simp [render, grouped, Style.sign, Style.plain]
          · rw [Sum.trees_append, treesL, treesR, operands_binary, List.map_append]

end Expr

namespace Formula

open Phrase

/-- The programming text of an expression is never refused but for its size, and it reads back as
the expression with its chains balanced, which has the same value. -/
theorem parse_programmingText (e : Expr) :
    match parse e.programmingText with
    | .ok f => f.expr = e.balance ∧ ∀ s, f.expr.eval s = e.eval s
    | .error failure => failure.IsTooComplex := by
  obtain ⟨sum, text, trees⟩ := e.written.sum
  have spells : sum.text = normalize e.programmingText.toList := by
    rw [Expr.programmingText, String.toList_ofList, normalize_programming, text]
  have read := exists_load_of_text spells
  cases outcome : parse e.programmingText with
  | error failure =>
      rw [outcome] at read
      exact read
  | ok f =>
      rw [outcome] at read
      obtain ⟨l, loaded, rfl⟩ := read
      have tree : l.expr = e.balance := by
        rw [Sum.expr_load loaded, trees, Expr.join_map_balance]
      exact ⟨tree, fun s => by rw [tree, Expr.eval_balance]⟩

/-- A product that leans to one side is read as a balanced tree. -/
example :
    let e : Expr := .binary .and (.binary .and (.binary .and (.var ⟨0⟩) (.not (.not (.var ⟨1⟩))))
      (.not (.binary .or (.var ⟨2⟩) (.const true)))) (.var ⟨3⟩)
    e.programmingText = "A & !!B & !(C | 1) & D" ∧
      (parse e.programmingText).toOption.map Formula.expr =
        some (.binary .and (.binary .and (.var ⟨0⟩) (.not (.not (.var ⟨1⟩))))
          (.binary .and (.not (.binary .or (.var ⟨2⟩) (.const true))) (.var ⟨3⟩))) := by
  decide +kernel

end Formula

end SwitchingLogic
