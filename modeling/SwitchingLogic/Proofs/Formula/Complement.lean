import Mathlib.Data.List.Infix
import Mathlib.Logic.Function.Iterate
import SwitchingLogic.Proofs.Formula.Parse
import SwitchingLogic.Proofs.Formula.Trees

/-!
# Complements of leaves

A `!` in front of a single character operand may as well be a `'` behind it.  The text is rewritten
in rounds, each of which turns every `!` that stands directly in front of such a character, until
none does; a run of `!` takes one round for each of its signs.  Every round leaves fewer of these
signs, so there is a last one, and going through the text once from right to left has the same
result.  What the text spells keeps its tree and its limits, since a negation counts the same on
both sides of an operand.
-/

namespace SwitchingLogic

namespace Formula

/-! ## Going from right to left -/

def moveBang : List Char → List Char
  | [] => ['!']
  | c :: rest => if isLeafChar c then c :: '\x27' :: rest else '!' :: c :: rest

theorem moveBang_leaf {c : Char} (leaf : isLeafChar c = true) (rest : List Char) :
    moveBang (c :: rest) = c :: '\x27' :: rest := if_pos leaf

theorem moveBang_other {c : Char} (other : ¬ isLeafChar c = true) (rest : List Char) :
    moveBang (c :: rest) = '!' :: c :: rest := if_neg other

theorem complementLeaves_cons {c : Char} (sign : c ≠ '!') (rest : List Char) :
    complementLeaves (c :: rest) = c :: complementLeaves rest := by
  rw [complementLeaves]
  rintro _ _ rfl
  exact absurd rfl sign

theorem complementLeaves_bang (rest : List Char) :
    complementLeaves ('!' :: rest) = moveBang (complementLeaves rest) := by
  rw [complementLeaves.eq_def]
  dsimp only
  cases complementLeaves rest with
  | nil => rfl
  | cons d tail => rfl

/-- A text begins with a `!` or with another character. -/
@[elab_as_elim]
theorem bang_induction {motive : List Char → Prop} (nil : motive [])
    (bang : ∀ rest, motive rest → motive ('!' :: rest))
    (other : ∀ c rest, c ≠ '!' → motive rest → motive (c :: rest)) (s : List Char) : motive s := by
  induction s with
  | nil => exact nil
  | cons c rest ih =>
      by_cases sign : c = '!'
      · exact sign ▸ bang rest ih
      · exact other c rest sign ih

theorem moveBang_append {s : List Char} (some' : s ≠ []) (t : List Char) :
    moveBang (s ++ t) = moveBang s ++ t := by
  cases s with
  | nil => exact absurd rfl some'
  | cons c rest => by_cases leaf : isLeafChar c = true <;> simp [moveBang, leaf]

theorem length_moveBang (s : List Char) : (moveBang s).length = s.length + 1 := by
  cases s with
  | nil => rfl
  | cons c rest => by_cases leaf : isLeafChar c = true <;> simp [moveBang, leaf]

theorem length_complementLeaves (s : List Char) : (complementLeaves s).length = s.length := by
  induction s using bang_induction with
  | nil => rfl
  | bang rest ih => rw [complementLeaves_bang, length_moveBang, ih, List.length_cons]
  | other c rest sign ih => rw [complementLeaves_cons sign, List.length_cons, List.length_cons, ih]

/-- A text that does not negate what follows it is rewritten on its own. -/
theorem complementLeaves_append {s : List Char} (ends : s.getLast? ≠ some '!') (t : List Char) :
    complementLeaves (s ++ t) = complementLeaves s ++ complementLeaves t := by
  induction s using bang_induction with
  | nil => rfl
  | bang rest ih =>
      have more : rest ≠ [] := fun last => ends (by rw [last]; rfl)
      have some' : complementLeaves rest ≠ [] := by
        rwa [← List.length_pos_iff, length_complementLeaves, List.length_pos_iff]
      rw [List.getLast?_cons_of_ne_nil more] at ends
      rw [List.cons_append, complementLeaves_bang, complementLeaves_bang, ih ends,
        moveBang_append some']
  | other c rest sign ih =>
      rw [List.cons_append, complementLeaves_cons sign, complementLeaves_cons sign]
      by_cases last : rest = []
      · rw [last]
        rfl
      · rw [List.getLast?_cons_of_ne_nil last] at ends
        rw [ih ends, List.cons_append]

/-- A sign behind the text that is not negated stays where it is. -/
theorem complementLeaves_concat (s : List Char) {c : Char} (sign : c ≠ '!')
    (other : isLeafChar c = false) : complementLeaves (s ++ [c]) = complementLeaves s ++ [c] := by
  induction s using bang_induction with
  | nil => exact complementLeaves_cons sign []
  | bang rest ih =>
      rw [List.cons_append, complementLeaves_bang, complementLeaves_bang, ih]
      cases complementLeaves rest with
      | nil => exact moveBang_other (Bool.not_eq_true _ ▸ other) []
      | cons d tail => exact moveBang_append (List.cons_ne_nil d tail) [c]
  | other d rest front ih =>
      rw [List.cons_append, complementLeaves_cons front, complementLeaves_cons front, ih,
        List.cons_append]

/-- A sign that neither negates nor is negated keeps the texts beside it apart. -/
theorem complementLeaves_append_cons (s t : List Char) {c : Char} (sign : c ≠ '!')
    (other : isLeafChar c = false) :
    complementLeaves (s ++ c :: t) = complementLeaves s ++ c :: complementLeaves t := by
  have ends : (s ++ [c]).getLast? ≠ some '!' := by
    rw [List.getLast?_concat]
    exact fun same => sign (Option.some.inj same)
  have parts := complementLeaves_append ends t
  rwa [complementLeaves_concat s sign other, List.append_assoc, List.append_assoc] at parts

theorem complementLeaves_grouped (s : List Char) :
    complementLeaves (Expr.grouped true s) = Expr.grouped true (complementLeaves s) := by
  have closed := complementLeaves_concat s (c := ')') (by decide) (by decide)
  rw [Expr.grouped, if_pos rfl, List.cons_append, complementLeaves_cons (by decide), closed]
  rfl

theorem nesting_cons {c : Char} (opening : c ≠ '(') (closing : c ≠ ')') (opened : Nat)
    (rest : List Char) : nesting opened (c :: rest) = nesting opened rest := by
  rw [nesting]
  · exact opening
  · exact closing

theorem nesting_moveBang (opened : Nat) (s : List Char) :
    nesting opened (moveBang s) = nesting opened s := by
  cases s with
  | nil => rfl
  | cons c rest =>
      by_cases leaf : isLeafChar c = true
      · have opening : c ≠ '(' := ne_of_isLeafChar leaf (by decide)
        have closing : c ≠ ')' := ne_of_isLeafChar leaf (by decide)
        rw [moveBang_leaf leaf, nesting_cons opening closing, nesting_cons opening closing,
          nesting_cons (by decide) (by decide)]
      · rw [moveBang_other leaf, nesting_cons (by decide) (by decide)]

/-- Parentheses do not move past each other. -/
theorem nesting_complementLeaves (opened : Nat) (s : List Char) :
    nesting opened (complementLeaves s) = nesting opened s := by
  induction s using bang_induction generalizing opened with
  | nil => rfl
  | bang rest ih =>
      rw [complementLeaves_bang, nesting_moveBang, ih, nesting_cons (by decide) (by decide)]
  | other c rest sign ih =>
      rw [complementLeaves_cons sign]
      by_cases opening : c = '('
      · rw [opening, nesting, nesting, ih]
      · by_cases closing : c = ')'
        · rw [closing, nesting, nesting, ih]
        · rw [nesting_cons opening closing, nesting_cons opening closing, ih]

theorem checkSize_complementLeaves (s : List Char) :
    checkSize (complementLeaves s) = checkSize s := by
  simp only [checkSize, length_complementLeaves, nesting_complementLeaves]

/-! ## Rounds -/

def NegatesLeaf (s : List Char) : Prop := ∃ c, isLeafChar c = true ∧ ['!', c] <:+: s

/-- One round: each `!` directly in front of a leaf goes behind the leaf.  The text is scanned from
left to right, and what has been rewritten is not looked at again. -/
def complementRound : List Char → List Char
  | [] => []
  | '!' :: c :: rest =>
      if isLeafChar c then c :: '\x27' :: complementRound rest
      else '!' :: complementRound (c :: rest)
  | c :: rest => c :: complementRound rest

theorem not_negatesLeaf_nil : ¬ NegatesLeaf [] := fun ⟨_, _, inside⟩ =>
  nomatch List.eq_nil_of_infix_nil inside

theorem negatesLeaf_cons {c : Char} {rest : List Char} :
    NegatesLeaf (c :: rest) ↔
      c = '!' ∧ (∃ d ∈ rest.head?, isLeafChar d = true) ∨ NegatesLeaf rest := by
  simp only [NegatesLeaf, List.infix_cons_iff, and_or_left, exists_or]
  refine or_congr ⟨?_, ?_⟩ Iff.rfl
  · rintro ⟨d, leaf, tail, whole⟩
    cases whole
    exact ⟨rfl, d, rfl, leaf⟩
  · rintro ⟨rfl, d, head, leaf⟩
    cases rest with
    | nil => cases head
    | cons e tail =>
        cases head
        exact ⟨d, leaf, tail, rfl⟩

/-- A round leaves fewer signs, if there is anything to do. -/
theorem count_complementRound (s : List Char) :
    (complementRound s).count '!' ≤ s.count '!' ∧
      (NegatesLeaf s → (complementRound s).count '!' < s.count '!') := by
  fun_induction complementRound s with
  | case1 => exact ⟨Nat.le_refl _, fun negates => absurd negates not_negatesLeaf_nil⟩
  | case2 c rest leaf ih =>
      have sign : c ≠ '!' := ne_of_isLeafChar leaf (by decide)
      have prime : '\x27' ≠ '!' := by decide
      rw [List.count_cons_of_ne sign, List.count_cons_of_ne prime, List.count_cons_self,
        List.count_cons_of_ne sign]
      exact ⟨Nat.le_succ_of_le ih.1, fun _ => Nat.lt_succ_of_le ih.1⟩
  | case3 c rest leaf ih =>
      rw [List.count_cons_self, List.count_cons_self]
      refine ⟨Nat.succ_le_succ ih.1, fun negates => Nat.succ_lt_succ (ih.2 ?_)⟩
      obtain ⟨_, d, head, leaf'⟩ | later := negatesLeaf_cons.mp negates
      · cases head
        exact absurd leaf' leaf
      · exact later
  | case4 c rest other ih =>
      have later : NegatesLeaf (c :: rest) → NegatesLeaf rest := by
        intro negates
        obtain ⟨bang, d, head, _⟩ | later := negatesLeaf_cons.mp negates
        · obtain ⟨tail, whole⟩ := List.head?_eq_some_iff.mp head
          exact (other d tail bang whole).elim
        · exact later
      rw [List.count_cons, List.count_cons]
      exact ⟨Nat.add_le_add_right ih.1 _, fun negates =>
        Nat.add_lt_add_right (ih.2 (later negates)) _⟩

theorem complementLeaves_complementRound (s : List Char) :
    complementLeaves (complementRound s) = complementLeaves s := by
  fun_induction complementRound s with
  | case1 => rfl
  | case2 c rest leaf ih =>
      have sign : c ≠ '!' := ne_of_isLeafChar leaf (by decide)
      rw [complementLeaves_cons sign, complementLeaves_cons (by decide), ih, complementLeaves_bang,
        complementLeaves_cons sign, moveBang_leaf leaf]
  | case3 c rest leaf ih => rw [complementLeaves_bang, complementLeaves_bang, ih]
  | case4 c rest other ih =>
      by_cases bang : c = '!'
      · rw [bang, complementLeaves_bang, complementLeaves_bang, ih]
      · rw [complementLeaves_cons bang, complementLeaves_cons bang, ih]

theorem complementLeaves_of_not_negatesLeaf {s : List Char} (settled : ¬ NegatesLeaf s) :
    complementLeaves s = s := by
  induction s using bang_induction with
  | nil => rfl
  | bang rest ih =>
      rw [negatesLeaf_cons, not_or] at settled
      rw [complementLeaves_bang, ih settled.2]
      cases rest with
      | nil => rfl
      | cons d tail => exact moveBang_other (fun leaf => settled.1 ⟨rfl, d, rfl, leaf⟩) tail
  | other c rest sign ih =>
      rw [negatesLeaf_cons, not_or] at settled
      rw [complementLeaves_cons sign, ih settled.2]

theorem not_negatesLeaf_moveBang {s : List Char} (settled : ¬ NegatesLeaf s) :
    ¬ NegatesLeaf (moveBang s) := by
  cases s with
  | nil => simp [moveBang, negatesLeaf_cons, not_negatesLeaf_nil]
  | cons c rest =>
      by_cases leaf : isLeafChar c = true
      · have sign : c ≠ '!' := ne_of_isLeafChar leaf (by decide)
        simpa [moveBang_leaf leaf, negatesLeaf_cons, sign] using settled
      · simpa [moveBang_other leaf, negatesLeaf_cons, leaf] using settled

theorem not_negatesLeaf_complementLeaves (s : List Char) : ¬ NegatesLeaf (complementLeaves s) := by
  induction s using bang_induction with
  | nil => exact not_negatesLeaf_nil
  | bang rest ih =>
      rw [complementLeaves_bang]
      exact not_negatesLeaf_moveBang ih
  | other c rest sign ih =>
      rw [complementLeaves_cons sign, negatesLeaf_cons, not_or]
      exact ⟨fun here => sign here.1, ih⟩

/-- The rounds end, and their result is that of going from right to left once. -/
theorem exists_rounds (s : List Char) :
    ∃ rounds ≤ s.count '!', (∀ n < rounds, NegatesLeaf (complementRound^[n] s)) ∧
      complementRound^[rounds] s = complementLeaves s := by
  by_cases negates : NegatesLeaf s
  · obtain ⟨rounds, bound, before, done⟩ := exists_rounds (complementRound s)
    have fewer := (count_complementRound s).2 negates
    refine ⟨rounds + 1, Nat.succ_le_of_lt (Nat.lt_of_le_of_lt bound fewer), fun n below => ?_, ?_⟩
    · cases n with
      | zero => exact negates
      | succ n => exact before n (Nat.lt_of_succ_lt_succ below)
    · rw [Function.iterate_succ_apply, done, complementLeaves_complementRound]
  · exact ⟨0, Nat.zero_le _, nofun, (complementLeaves_of_not_negatesLeaf negates).symm⟩
termination_by s.count '!'
decreasing_by exact (count_complementRound s).2 negates

end Formula

namespace Phrase

open Formula

/-! ## Loading alike -/

/-- Two operations have the same result, or both of them fail. -/
def Agree {α : Type} (first second : Except Error α) : Prop :=
  ∀ a, first = .ok a ↔ second = .ok a

theorem Agree.refl {α : Type} (result : Except Error α) : Agree result result := fun _ => Iff.rfl

theorem Agree.trans {α : Type} {first second third : Except Error α} (front : Agree first second)
    (back : Agree second third) : Agree first third := fun a => (front a).trans (back a)

theorem Agree.bind {α β : Type} {first second : Except Error α} {next next' : α → Except Error β}
    (agree : Agree first second) (later : ∀ a, Agree (next a) (next' a)) :
    Agree (first >>= next) (second >>= next') := by
  intro b
  rw [Error.bind_eq_ok_iff, Error.bind_eq_ok_iff]
  exact exists_congr fun a => and_congr (agree a) (later a b)

theorem Agree.bind_left {α β : Type} {first second : Except Error α} (agree : Agree first second)
    (next : α → Except Error β) : Agree (first >>= next) (second >>= next) :=
  agree.bind fun a => .refl (next a)

theorem checkDepth_eq_ok_iff {depth d : Nat} :
    checkDepth depth = .ok d ↔ depth ≤ maxDepth ∧ d = depth := by
  rw [checkDepth]
  split
  · rename_i above
    refine iff_of_false (fun run => ?_) fun both => Nat.not_lt.mpr both.1 above
    cases run
  · rename_i within
    exact ⟨fun run => ⟨Nat.le_of_not_lt within, (Error.pure_eq_ok_iff.mp run).symm⟩,
      fun both => Error.pure_eq_ok_iff.mpr both.2.symm⟩

/-- The negation of a loaded tree, if its height allows it. -/
def Loaded.negate (l : Loaded) : Except Error Loaded := do
  let depth ← checkDepth (l.depth + 1)
  pure ⟨.not l.expr, depth⟩

theorem Loaded.negate_eq_ok_iff {l l' : Loaded} :
    l.negate = .ok l' ↔ l.depth + 1 ≤ maxDepth ∧ l' = ⟨.not l.expr, l.depth + 1⟩ := by
  rw [negate, Error.bind_eq_ok_iff]
  simp only [checkDepth_eq_ok_iff, Error.pure_eq_ok_iff, and_assoc, exists_and_left, exists_eq_left]
  exact and_congr_right fun _ => eq_comm

theorem load_factor_eq_ok_iff {bangs : Nat} {o : Operand} {l : Loaded} :
    (Factor.mk bangs o).load = .ok l ↔ ∃ inner, o.load = .ok inner ∧
      inner.depth + bangs ≤ maxDepth ∧
        l = ⟨bangs.repeat .not inner.expr, inner.depth + bangs⟩ := by
  rw [Factor.load, Error.bind_eq_ok_iff]
  refine exists_congr fun inner => and_congr_right fun _ => ?_
  rw [Error.bind_eq_ok_iff]
  simp only [checkDepth_eq_ok_iff, Error.pure_eq_ok_iff, and_assoc, exists_and_left, exists_eq_left]
  exact and_congr_right fun _ => eq_comm

/-- One more sign negates the factor. -/
theorem agree_load_bang (bangs : Nat) (o : Operand) :
    Agree (Factor.mk (bangs + 1) o).load ((Factor.mk bangs o).load >>= Loaded.negate) := by
  intro l
  simp only [load_factor_eq_ok_iff, Error.bind_eq_ok_iff, Loaded.negate_eq_ok_iff]
  constructor
  · rintro ⟨inner, loaded, within, rfl⟩
    exact ⟨_, ⟨inner, loaded, by omega, rfl⟩, within, rfl⟩
  · rintro ⟨_, ⟨inner, loaded, _, rfl⟩, within, rfl⟩
    exact ⟨inner, loaded, within, rfl⟩

/-! ## Rewritten phrases -/

theorem getLast?_text_operand (o : Operand) : o.text.getLast? ≠ some '!' := by
  cases o with
  | letter v => exact fun last => (Reader.startsOperand_letter v).2 (Option.some.inj last)
  | digit b => cases b <;> decide
  | group q =>
      rw [Operand.text, List.getLast?_concat]
      decide
  | complement o =>
      rw [Operand.text, List.getLast?_concat]
      decide

theorem getLast?_text_factor (f : Factor) : f.text.getLast? ≠ some '!' := by
  obtain ⟨bangs, o⟩ := f
  obtain ⟨c, rest, text, _⟩ := Reader.exists_startsOperand_operand o
  have some' : o.text ≠ [] := text ▸ List.cons_ne_nil c rest
  rw [Factor.text, List.getLast?_append_of_ne_nil _ some']
  exact getLast?_text_operand o

/-- A product does not negate what follows it. -/
theorem getLast?_text_product (p : Product) : p.text.getLast? ≠ some '!' := by
  cases p with
  | one f => exact getLast?_text_factor f
  | times p dot f =>
      obtain ⟨c, rest, text, _⟩ := Reader.exists_startsOperand_factor f
      have some' : f.text ≠ [] := text ▸ List.cons_ne_nil c rest
      rw [Product.text, List.getLast?_append_of_ne_nil _ some']
      exact getLast?_text_factor f

/-- A complement at the end of a single character and its complements is as good as one directly
behind the character. -/
theorem Operand.text_complement_eq {o : Operand} {c : Char} {rest : List Char}
    (text : o.text = c :: rest) (leaf : Formula.isLeafChar c = true) :
    (Operand.complement o).text = c :: '\x27' :: rest := by
  match o with
  | .letter v =>
      cases text
      rfl
  | .digit b =>
      cases text
      rfl
  | .group q =>
      cases text
      cases leaf
  | .complement o =>
      obtain ⟨d, tail, inner, _⟩ := Reader.exists_startsOperand_operand o
      rw [Operand.text, inner] at text
      cases text
      rw [Operand.text, text_complement_eq inner leaf]
      rfl

/-- A negated factor is a factor: the sign stays in front of it, or moves behind a character. -/
theorem exists_factor_not (f : Factor) {s : List Char} (text : f.text = complementLeaves s) :
    ∃ f' : Factor, f'.text = complementLeaves ('!' :: s) ∧ f'.tree = .not f.tree ∧
      Agree f'.load (f.load >>= Loaded.negate) := by
  rw [complementLeaves_bang, ← text]
  obtain ⟨bangs, o⟩ := f
  obtain ⟨c, rest, spells, _⟩ := Reader.exists_startsOperand_factor (.mk bangs o)
  by_cases leaf : isLeafChar c = true
  · cases bangs with
    | zero =>
        refine ⟨.mk 0 (.complement o), ?_, rfl, fun l => ?_⟩
        · rw [spells, moveBang_leaf leaf]
          exact Operand.text_complement_eq spells leaf
        · have inner : (Operand.complement o).load = o.load >>= Loaded.negate := rfl
          simp only [load_factor_eq_ok_iff, inner, Error.bind_eq_ok_iff, Loaded.negate_eq_ok_iff]
          constructor
          · rintro ⟨_, ⟨l', loaded, within, rfl⟩, _, rfl⟩
            exact ⟨_, ⟨l', loaded, by omega, rfl⟩, within, rfl⟩
          · rintro ⟨_, ⟨l', loaded, _, rfl⟩, within, rfl⟩
            exact ⟨_, ⟨l', loaded, within, rfl⟩, within, rfl⟩
    | succ n =>
        cases spells
        exact absurd leaf (by decide)
  · refine ⟨.mk (bangs + 1) o, ?_, rfl, agree_load_bang bangs o⟩
    rw [spells, moveBang_other leaf, ← spells]
    rfl

/-- The signs in front of an operand move one after another, the innermost one first. -/
theorem exists_factor_of_operand {o o' : Operand} (text : o'.text = complementLeaves o.text)
    (tree : o'.tree = o.tree) (load : Agree o'.load o.load) (bangs : Nat) :
    ∃ f' : Factor, f'.text = complementLeaves (Factor.mk bangs o).text ∧
      f'.tree = (Factor.mk bangs o).tree ∧ Agree f'.load (Factor.mk bangs o).load := by
  induction bangs with
  | zero => exact ⟨.mk 0 o', text, tree, load.bind_left _⟩
  | succ n ih =>
      obtain ⟨f, textF, treeF, loadF⟩ := ih
      obtain ⟨f', text', tree', load'⟩ := exists_factor_not f textF
      have negated : Agree (f.load >>= Loaded.negate) (Factor.mk (n + 1) o).load := fun l =>
        ((loadF.bind_left Loaded.negate) l).trans (agree_load_bang n o l).symm
      exact ⟨f', text', tree'.trans (congrArg Expr.not treeF), load'.trans negated⟩

mutual

/-- The rewritten text of a sum spells a sum with the same trees, which loads alike. -/
theorem exists_sum_complementLeaves (q : Sum) :
    ∃ q' : Sum, q'.text = complementLeaves q.text ∧ q'.trees = q.trees ∧
      Agree q'.chain q.chain := by
  match q with
  | .one p =>
      obtain ⟨p', text, trees, chain⟩ := exists_product_complementLeaves p
      exact ⟨.one p', text, by rw [Sum.trees, Sum.trees, trees], chain.bind_left _⟩
  | .plus q p =>
      obtain ⟨q', textQ, treesQ, chainQ⟩ := exists_sum_complementLeaves q
      obtain ⟨p', textP, treesP, chainP⟩ := exists_product_complementLeaves p
      refine ⟨.plus q' p', ?_, ?_, chainQ.bind fun c => chainP.bind_left _⟩
      · rw [Sum.text, Sum.text, complementLeaves_append_cons _ _ (by decide) (by decide), textQ,
          textP]
      · rw [Sum.trees, Sum.trees, treesQ, treesP]

theorem exists_product_complementLeaves (p : Product) :
    ∃ p' : Product, p'.text = complementLeaves p.text ∧ p'.trees = p.trees ∧
      Agree p'.chain p.chain := by
  match p with
  | .one (.mk bangs o) =>
      obtain ⟨o', textO, treeO, loadO⟩ := exists_operand_complementLeaves o
      obtain ⟨f', text, tree, load⟩ := exists_factor_of_operand textO treeO loadO bangs
      exact ⟨.one f', text, by rw [Product.trees, Product.trees, tree], load.bind_left _⟩
  | .times p dot (.mk bangs o) =>
      obtain ⟨p', textP, treesP, chainP⟩ := exists_product_complementLeaves p
      obtain ⟨o', textO, treeO, loadO⟩ := exists_operand_complementLeaves o
      obtain ⟨f', text, tree, load⟩ := exists_factor_of_operand textO treeO loadO bangs
      refine ⟨.times p' dot f', ?_, ?_, chainP.bind fun c => load.bind_left _⟩
      · rw [Product.text, Product.text, textP, text]
        cases dot with
        | true =>
            have sign := complementLeaves_append_cons p.text (Factor.mk bangs o).text (c := '·')
              (by decide) (by decide)
            simpa using sign.symm
        | false =>
            have next := complementLeaves_append (getLast?_text_product p)
              (Factor.mk bangs o).text
            simpa using next.symm
      · rw [Product.trees, Product.trees, treesP, tree]

theorem exists_operand_complementLeaves (o : Operand) :
    ∃ o' : Operand, o'.text = complementLeaves o.text ∧ o'.tree = o.tree ∧
      Agree o'.load o.load := by
  match o with
  | .letter v =>
      have sign : v.letter ≠ '!' := (Reader.startsOperand_letter v).2
      exact ⟨.letter v, (complementLeaves_cons sign []).symm, rfl, .refl _⟩
  | .digit b => exact ⟨.digit b, by cases b <;> rfl, rfl, .refl _⟩
  | .group q =>
      obtain ⟨q', text, trees, chain⟩ := exists_sum_complementLeaves q
      refine ⟨.group q', ?_, by rw [Operand.tree, Operand.tree, trees], chain.bind_left _⟩
      have group : (Operand.group q).text = Expr.grouped true q.text := rfl
      rw [group, complementLeaves_grouped, ← text]
      rfl
  | .complement o =>
      obtain ⟨o', text, tree, load⟩ := exists_operand_complementLeaves o
      refine ⟨.complement o', ?_, by rw [Operand.tree, Operand.tree, tree], load.bind_left _⟩
      have behind := complementLeaves_concat o.text (c := '\x27') (by decide) (by decide)
      rw [Operand.text, Operand.text, text, behind]

end

end Phrase

namespace Formula

open Phrase

/-- The text is that of a sum with this tree, whether or not the tree is within the bounds. -/
def Reads (s : List Char) (e : Expr) : Prop :=
  ∃ sum : Sum, sum.text = s ∧ Expr.join .or sum.trees = e

/-- Rewriting ends on every text with no sign in front of a leaf.  A text that the grammar accepts
is rewritten into one that is accepted, too, and both are read alike: they have the same size and
the same tree, and either both are loaded or both are too high. -/
theorem complementLeaves_exact (source : String) (s : List Char) :
    (∃ rounds ≤ s.count '!', (∀ n < rounds, NegatesLeaf (complementRound^[n] s)) ∧
        complementRound^[rounds] s = complementLeaves s) ∧
      ¬ NegatesLeaf (complementLeaves s) ∧
      (Grammar.Derives (.rule .expr) s →
        Grammar.Derives (.rule .expr) (complementLeaves s) ∧
          checkSize (complementLeaves s) = checkSize s ∧
          ∃ e, Reads s e ∧ Reads (complementLeaves s) e ∧
            match load source s, load source (complementLeaves s) with
            | .ok l, .ok l' => l.expr = e ∧ l' = l
            | .error failure, .error failure' => failure.IsTooComplex ∧ failure'.IsTooComplex
            | _, _ => False) := by
  refine ⟨exists_rounds s, not_negatesLeaf_complementLeaves s, fun accepted => ?_⟩
  obtain ⟨sum, rfl⟩ := (Grammar.derives_expr_iff s).mp accepted
  obtain ⟨sum', text, trees, chain⟩ := exists_sum_complementLeaves sum
  have loads (q : Sum) : load source q.text = q.load := by
    rw [load, Sum.read?_eq_some_iff.mpr rfl]
  have agree : Agree sum'.load sum.load := chain.bind_left _
  refine ⟨(Grammar.derives_expr_iff _).mpr ⟨sum', text⟩, checkSize_complementLeaves sum.text,
    _, ⟨sum, rfl, rfl⟩, ⟨sum', text, by rw [trees]⟩, ?_⟩
  rw [← text, loads, loads]
  cases outcome : sum.load with
  | ok l =>
      rw [(agree l).mpr outcome]
      exact ⟨Sum.expr_load outcome, rfl⟩
  | error failure =>
      cases outcome' : sum'.load with
      | ok l =>
          rw [(agree l).mp outcome'] at outcome
          cases outcome
      | error failure' => exact ⟨sum.bounded_load _ outcome, sum'.bounded_load _ outcome'⟩

theorem complementLeaves_exact_mixed :
    let s := "!!A'B+!(C·!!D)'".toList
    Grammar.Derives (.rule .expr) s ∧ complementLeaves s = "A'''B+!(C·D'')'".toList ∧
      Grammar.Derives (.rule .expr) (complementLeaves s) ∧
      ∃ l, Reads s l.expr ∧ Reads (complementLeaves s) l.expr ∧ load "" s = .ok l ∧
        load "" (complementLeaves s) = .ok l := by
  intro s
  let product : Product := .times (.one (.mk 2 (.complement (.letter ⟨0⟩)))) false
    (.mk 0 (.letter ⟨1⟩))
  let group : Operand := .group (.one (.times (.one (.mk 0 (.letter ⟨2⟩))) true
    (.mk 2 (.letter ⟨3⟩))))
  let sum : Sum := .plus (.one product) (.one (.mk 1 (.complement group)))
  have accepted : Grammar.Derives (.rule .expr) s :=
    (Grammar.derives_expr_iff s).mpr ⟨sum, by decide⟩
  have rewritten : complementLeaves s = "A'''B+!(C·D'')'".toList := by decide
  have loads : (load "" s).isOk = true := by decide +kernel
  clear_value s
  obtain ⟨_, _, reading⟩ := complementLeaves_exact "" s
  obtain ⟨accepted', _, e, before, after, alike⟩ := reading accepted
  refine ⟨accepted, rewritten, accepted', ?_⟩
  cases outcome : load "" s with
  | error failure =>
      rw [outcome] at loads
      cases loads
  | ok l =>
      cases outcome' : load "" (complementLeaves s) with
      | error failure =>
          rw [outcome, outcome'] at alike
          exact alike.elim
      | ok l' =>
          rw [outcome, outcome'] at alike
          obtain ⟨rfl, rfl⟩ := alike
          exact ⟨l', before, after, rfl, rfl⟩

end Formula

end SwitchingLogic
