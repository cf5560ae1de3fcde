import Mathlib.Data.List.SplitBy
import SwitchingLogic.Proofs.Formula.Complement

/-!
# Reading canonical text

The canonical text of an expression spells a phrase of the same value, and loading a phrase keeps
its value.  What the reader is given, however, is the normalized text.  Products are written without
a sign, so the letters of a product may form a word that names an operation; a text without such a
word loses nothing but its blanks and reads back as an equivalent expression.
-/

namespace SwitchingLogic

namespace Phrase

mutual

def Sum.eval : Sum → State → Bool
  | .one p, s => p.eval s
  | .plus q p, s => q.eval s || p.eval s

def Product.eval : Product → State → Bool
  | .one f, s => f.eval s
  | .times p _ f, s => p.eval s && f.eval s

def Factor.eval : Factor → State → Bool
  | .mk bangs o, s => bangs.repeat (!·) (o.eval s)

def Operand.eval : Operand → State → Bool
  | .letter v, s => s.isActive v
  | .digit b, _ => b
  | .group q, s => q.eval s
  | .complement o, s => !o.eval s

end

theorem eval_repeat_not (n : Nat) (e : Expr) (s : State) :
    (n.repeat Expr.not e).eval s = n.repeat (!·) (e.eval s) := by
  induction n with
  | zero => rfl
  | succ n ih => exact congrArg (!·) ih

mutual

theorem eval_trees_sum (q : Sum) (s : State) : q.trees.any (·.eval s) = q.eval s := by
  match q with
  | .one p =>
      rw [Sum.trees, List.any_cons, List.any_nil, Bool.or_false, Expr.eval_conj,
        eval_trees_product p, Sum.eval]
  | .plus q p =>
      rw [Sum.trees, List.any_append, eval_trees_sum q, List.any_cons, List.any_nil, Bool.or_false,
        Expr.eval_conj, eval_trees_product p, Sum.eval]

theorem eval_trees_product (p : Product) (s : State) : p.trees.all (·.eval s) = p.eval s := by
  match p with
  | .one f =>
      rw [Product.trees, List.all_cons, List.all_nil, Bool.and_true, eval_tree_factor f,
        Product.eval]
  | .times p dot f =>
      rw [Product.trees, List.all_append, eval_trees_product p, List.all_cons, List.all_nil,
        Bool.and_true, eval_tree_factor f, Product.eval]

theorem eval_tree_factor (f : Factor) (s : State) : f.tree.eval s = f.eval s := by
  match f with
  | .mk bangs o => rw [Factor.tree, eval_repeat_not, eval_tree_operand o, Factor.eval]

theorem eval_tree_operand (o : Operand) (s : State) : o.tree.eval s = o.eval s := by
  match o with
  | .letter v => rw [Operand.tree, Operand.eval, Expr.eval]
  | .digit b => rw [Operand.tree, Operand.eval, Expr.eval]
  | .group q => rw [Operand.tree, Expr.eval_disj, eval_trees_sum q, Operand.eval]
  | .complement o => rw [Operand.tree, Expr.eval, eval_tree_operand o, Operand.eval]

end

theorem Sum.eval_load {q : Sum} {l : Loaded} (loaded : q.load = .ok l) (s : State) :
    l.expr.eval s = q.eval s := by
  rw [Sum.expr_load loaded, Expr.eval_disj, eval_trees_sum]

end Phrase

namespace Formula

def isTextChar (c : Char) : Bool :=
  isLeafChar c || c == '+' || c == '\x27' || c == '(' || c == ')' || c == ' '

theorem isTextChar_of_mem_render {e : Expr} {parent : Option Connective} {c : Char}
    (mem : c ∈ e.render .canonical parent) : isTextChar c = true := by
  have grouped {needed : Bool} {s : List Char} (inside : ∀ d ∈ s, isTextChar d = true) :
      ∀ d ∈ Expr.grouped needed s, isTextChar d = true := by
    cases needed with
    | false => exact inside
    | true =>
        intro d mem
        simp only [Expr.grouped, if_true, List.mem_append, List.mem_cons, List.not_mem_nil,
          or_false] at mem
        obtain (rfl | mem) | rfl := mem
        · rfl
        · exact inside d mem
        · rfl
  induction e generalizing parent c with
  | var v =>
      cases List.mem_singleton.mp mem
      simp [isTextChar, isLeafChar, (Variable.letter_spec v).1]
  | const b =>
      cases List.mem_singleton.mp mem
      cases b <;> rfl
  | not e ih =>
      obtain mem | mem := List.mem_append.mp mem
      · exact grouped (fun d => ih) c mem
      · cases List.mem_singleton.mp mem
        rfl
  | binary op l r ihl ihr =>
      refine grouped (fun d mem => ?_) c mem
      rw [List.mem_append, List.mem_append] at mem
      obtain (mem | mem) | mem := mem
      · exact ihl mem
      · cases op with
        | and => cases mem
        | or => exact List.all_eq_true.mp (rfl : " + ".toList.all isTextChar = true) d mem
      · exact ihr mem

end Formula

namespace Expr

open Phrase

/-! ## The phrases of a canonical text -/

/-- Below a disjunction a tree stands as it does on its own. -/
theorem render_or (style : Style) (e : Expr) :
    e.render style (some .or) = e.render style none := by
  cases e with
  | var v => rfl
  | const b => rfl
  | not e => rfl
  | binary op l r => cases op <;> rfl

theorem Text.dropBlanks_append (s t : List Char) :
    Text.dropBlanks (s ++ t) = Text.dropBlanks s ++ Text.dropBlanks t :=
  List.filter_append s t

theorem dropBlanks_grouped (needed : Bool) (s : List Char) :
    Text.dropBlanks (grouped needed s) = grouped needed (Text.dropBlanks s) := by
  have opening : Text.isBlank '(' = false := rfl
  have closing : Text.isBlank ')' = false := rfl
  cases needed with
  | false => rfl
  | true => simp [grouped, Text.dropBlanks, opening, closing]

theorem isBlank_letter (v : Variable) : Text.isBlank v.letter = false := by
  obtain ⟨index⟩ := v
  revert index
  decide

theorem chars_not (e : Expr) :
    (Expr.not e).chars = grouped (!e.isAtomic) e.chars ++ ['\x27'] := rfl

theorem chars_and (l r : Expr) :
    (Expr.binary .and l r).chars =
      l.render .canonical (some .and) ++ r.render .canonical (some .and) := by
  simp [chars, render, grouped, Style.sign, Style.canonical]

theorem chars_or (l r : Expr) :
    (Expr.binary .or l r).chars = l.chars ++ " + ".toList ++ r.chars := by
  rw [chars, chars, chars, ← render_or .canonical l, ← render_or .canonical r]
  rfl

theorem notMem_bang_grouped (e : Expr) :
    '!' ∉ grouped (!e.isAtomic) (Text.dropBlanks e.chars) := by
  rw [← dropBlanks_grouped]
  intro mem
  have inside : '!' ∈ (Expr.not e).chars := List.mem_append_left _ (List.mem_of_mem_filter mem)
  exact absurd (Formula.isTextChar_of_mem_render inside) (by decide)

/-- The canonical text of a tree spells the phrases of the tree once its blanks are gone. -/
theorem phrased_chars (e : Expr) :
    e.Phrased (grouped (!e.isAtomic) (Text.dropBlanks e.chars))
      (Text.dropBlanks (e.render .canonical (some .and))) (Text.dropBlanks e.chars) := by
  induction e with
  | var v =>
      refine .of_atomic rfl (f := .mk 0 (.letter v)) ?_ (balance_var v).symm
      simp [Factor.text, Operand.text, grouped, isAtomic, chars, render, Text.dropBlanks,
        isBlank_letter]
  | const b =>
      exact .of_atomic rfl (f := .mk 0 (.digit b)) (by cases b <;> rfl) (balance_const b).symm
  | not e ih =>
      obtain ⟨o, text, tree⟩ := ih.exists_operand (notMem_bang_grouped e)
      refine .of_atomic rfl (f := .mk 0 (.complement o)) ?_ ?_
      · change o.text ++ ['\x27'] = Text.dropBlanks (Expr.not e).chars
        rw [text, chars_not, Text.dropBlanks_append, dropBlanks_grouped]
        rfl
      · rw [balance_not, ← tree]
        rfl
  | binary op l r ihl ihr =>
      cases op with
      | and =>
          obtain ⟨p, textL, treesL⟩ := ihl.product
          obtain ⟨p', textR, treesR⟩ := ihr.product
          refine .of_product (p := p.append p') ?_ ?_
          · rw [Product.text_append, textL, textR, chars_and, Text.dropBlanks_append]
          · rw [Product.trees_append, treesL, treesR, operands_binary, List.map_append]
      | or =>
          obtain ⟨q, textL, treesL⟩ := ihl.sum
          obtain ⟨q', textR, treesR⟩ := ihr.sum
          have below : Text.dropBlanks ((binary .or l r).render .canonical (some .and)) =
              grouped true (Text.dropBlanks (binary .or l r).chars) := dropBlanks_grouped true _
          have sign : Text.dropBlanks " + ".toList = ['+'] := by decide
          rw [below]
          refine .of_sum (q := q.append q') ?_ ?_
          · rw [Sum.text_append, textL, textR, chars_or, Text.dropBlanks_append,
              Text.dropBlanks_append, sign, List.append_assoc, List.singleton_append]
          · rw [Sum.trees_append, treesL, treesR, operands_binary, List.map_append]

/-- The phrases that the canonical text of a tree spells once its blanks are gone: an operand where
the tree is negated, a product where it stands below a product, and a sum elsewhere. -/
structure Spelled (e : Expr) : Prop where
  operand : ∃ o : Operand, o.text = grouped (!e.isAtomic) (Text.dropBlanks e.chars) ∧
    ∀ s, o.eval s = e.eval s
  product : ∃ p : Product, p.text = Text.dropBlanks (e.render .canonical (some .and)) ∧
    ∀ s, p.eval s = e.eval s
  sum : ∃ q : Sum, q.text = Text.dropBlanks e.chars ∧ ∀ s, q.eval s = e.eval s

theorem spelled (e : Expr) : e.Spelled := by
  have value (s : State) : e.balance.eval s = e.eval s := eval_balance e s
  obtain ⟨o, textO, tree⟩ := e.phrased_chars.exists_operand (notMem_bang_grouped e)
  obtain ⟨p, textP, factors⟩ := e.phrased_chars.product
  obtain ⟨q, textQ, products⟩ := e.phrased_chars.sum
  exact {
    operand := ⟨o, textO, fun s => by rw [← eval_tree_operand, tree, value]⟩
    product := ⟨p, textP, fun s => by
      rw [← eval_trees_product, factors, ← eval_conj, conj, join_map_balance, value]⟩
    sum := ⟨q, textQ, fun s => by
      rw [← eval_trees_sum, products, ← eval_disj, disj, join_map_balance, value]⟩ }

end Expr

namespace Formula

open Phrase

theorem replaceWords_eq_self {s : List Char}
    (plain : ∀ run ∈ Text.runs s, wordSign run = run) : replaceWords s = s := by
  rw [replaceWords, List.flatMap_def, List.map_congr_left plain, List.map_id', Text.runs,
    List.flatten_splitBy]

theorem replaceSigns_eq_self {s : List Char} (plain : ∀ c ∈ s, isTextChar c = true) :
    replaceSigns s = s := by
  fun_induction replaceSigns s with
  | case1 => rfl
  | case2 rest ih => exact absurd (plain '&' List.mem_cons_self) (by decide)
  | case3 rest ih => exact absurd (plain '|' List.mem_cons_self) (by decide)
  | case4 c rest _ _ sign ih =>
      have other (d : Char) (sign : isTextChar d = false) : c ≠ d := by
        rintro rfl
        exact Bool.false_ne_true (sign.symm.trans (plain c List.mem_cons_self))
      rw [ih fun d mem => plain d (List.mem_cons_of_mem _ mem)]
      simp [sign, other '&' rfl, other '*' rfl, other '∧' rfl, other '⋅' rfl, other '|' rfl,
        other '∨' rfl, other '\u0305' rfl, other '’' rfl, other '′' rfl]

theorem complementLeaves_eq_self {s : List Char} (plain : '!' ∉ s) : complementLeaves s = s :=
  complementLeaves_of_not_negatesLeaf fun ⟨_, _, inside⟩ =>
    plain (inside.subset List.mem_cons_self)

/-- A canonical text in which no word names an operation only loses its blanks. -/
theorem normalize_chars {e : Expr} (plain : ∀ run ∈ Text.runs e.chars, wordSign run = run) :
    normalize e.chars = Text.dropBlanks e.chars := by
  rw [normalize, replaceWords_eq_self plain,
    replaceSigns_eq_self (s := e.chars) fun c mem => isTextChar_of_mem_render mem,
    complementLeaves_eq_self]
  intro mem
  exact absurd (isTextChar_of_mem_render (List.mem_of_mem_filter mem)) (by decide)

/-! ## The way back -/

/-- The canonical text of an expression reads back as an expression of the same value unless it is
too large, provided that no whole word of it names an operation. -/
theorem eval_parse_text (e : Expr) (plain : ∀ run ∈ Text.runs e.chars, wordSign run = run) :
    match parse e.text with
    | .ok f => f.normalized = String.ofList (Text.dropBlanks e.chars) ∧
        ∀ s, f.expr.eval s = e.eval s
    | .error failure => failure.IsTooComplex := by
  obtain ⟨sum, text, value⟩ := e.spelled.sum
  have normalized : normalize e.text.toList = sum.text := by
    rw [Expr.text, String.toList_ofList, normalize_chars plain, text]
  have faultless : fault? (normalize e.text.toList) = none :=
    (fault?_eq_none_iff _).mpr ⟨sum, Sum.read?_eq_some_iff.mpr normalized.symm⟩
  have bounded := bounded_parse faultless
  obtain ⟨read, spells, parsed⟩ := exists_parse_eq faultless
  cases outcome : parse e.text with
  | error failure => exact bounded failure outcome
  | ok f =>
      rw [parsed] at outcome
      obtain ⟨_, _, later⟩ := Error.bind_eq_ok_iff.mp outcome
      obtain ⟨l, loaded, made⟩ := Error.bind_eq_ok_iff.mp later
      cases Error.pure_eq_ok_iff.mp made
      have same : read = sum :=
        Option.some.inj ((Sum.read?_eq_some_iff.mpr spells).symm.trans
          (Sum.read?_eq_some_iff.mpr normalized.symm))
      exact ⟨by rw [normalized, text], fun s => by rw [Sum.eval_load loaded, same, value]⟩

theorem eval_parse_text_negated :
    let e : Expr := .binary .or (.binary .and (.var ⟨0⟩) (.not (.binary .or (.var ⟨1⟩) (.var ⟨2⟩))))
      (.binary .and (.var ⟨13⟩) (.binary .and (.var ⟨14⟩) (.var ⟨17⟩)))
    (∀ run ∈ Text.runs e.chars, wordSign run = run) ∧ e.text = "A(B + C)' + NOR" ∧
      ∃ f, parse e.text = .ok f ∧ ∀ s, f.expr.eval s = e.eval s := by
  intro e
  have plain : ∀ run ∈ Text.runs e.chars, wordSign run = run := by decide +kernel
  have back := eval_parse_text e plain
  have read : (parse e.text).isOk = true := by decide +kernel
  cases parsed : parse e.text with
  | error failure =>
      rw [parsed] at read
      cases read
  | ok f =>
      rw [parsed] at back
      exact ⟨plain, by decide +kernel, f, rfl, back.2⟩

/-- The letters of a product that form a word are read as the operation that it names.  Of `AND`
nothing is left to apply the operation to; a negated `A` in front of `OR` and a group turns from a
factor into a summand. -/
theorem parse_text_keyword :
    parse (Expr.binary .and (.binary .and (.var ⟨0⟩) (.var ⟨13⟩)) (.var ⟨3⟩)).text =
        .error (.malformed "AND" (.leadingOperator '·')) ∧
      let e : Expr := .binary .and (.not (.var ⟨0⟩)) (.binary .and (.binary .and (.var ⟨14⟩)
        (.var ⟨17⟩)) (.binary .or (.var ⟨1⟩) (.var ⟨2⟩)))
      e.text = "A'OR(B + C)" ∧ ∃ f, parse e.text = .ok f ∧ f.normalized = "A'+(B+C)" ∧
        ∃ s, f.expr.eval s ≠ e.eval s := by
  constructor
  · have found : fault? (normalize (Expr.binary .and (.binary .and (.var ⟨0⟩) (.var ⟨13⟩))
        (.var ⟨3⟩)).text.toList) = some (.leadingOperator '·') := by decide +kernel
    exact parse_of_fault found
  · intro e
    have read : (parse e.text).toOption.map (fun f => (f.normalized, f.expr.eval .allFalse)) =
        some ("A'+(B+C)", true) := by decide +kernel
    obtain ⟨f, parsed, values⟩ := Option.map_eq_some_iff.mp read
    cases outcome : parse e.text with
    | error failure =>
        rw [outcome] at parsed
        cases parsed
    | ok g =>
        rw [outcome] at parsed
        cases parsed
        obtain ⟨normalized, value⟩ := Prod.mk.inj values
        refine ⟨by decide +kernel, f, rfl, normalized, .allFalse, ?_⟩
        rw [value]
        decide

end Formula

end SwitchingLogic
