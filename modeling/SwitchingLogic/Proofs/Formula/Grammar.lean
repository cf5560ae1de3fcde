import Mathlib.Data.List.Basic
import SwitchingLogic.Formula.Grammar
import SwitchingLogic.Proofs.Formula.Reader

/-!
# Texts of the grammar

Phrases are the derivations of the grammar, written down: the texts derived from its first rule are
the texts of sums.  The matcher never misses one of them.  What it has to give back in order to go
on it never takes in the first place, because the character behind a part of a formula tells that
the part has ended.
-/

namespace SwitchingLogic.Formula.Grammar

open Phrase

/-! ## Matched texts are derived -/

theorem derives_of_matches {b : Body} {s rest : List Char} (found : Matches b s (some rest)) :
    ∃ front, s = front ++ rest ∧ Derives b front := by
  generalize same : some rest = out at found
  induction found generalizing rest with
  | sign c t =>
      cases same
      exact ⟨[c], rfl, .sign c⟩
  | letter t alpha =>
      cases same
      exact ⟨[_], rfl, .letter alpha⟩
  | finish =>
      cases same
      exact ⟨[], rfl, .finish⟩
  | rule body ih =>
      obtain ⟨front, whole, derived⟩ := ih same
      exact ⟨front, whole, .rule derived⟩
  | seq first second ihFirst ihSecond =>
      obtain ⟨front, rfl, derivedFront⟩ := ihFirst rfl
      obtain ⟨middle, rfl, derivedMiddle⟩ := ihSecond same
      exact ⟨front ++ middle, (List.append_assoc ..).symm, .seq derivedFront derivedMiddle⟩
  | choiceFirst first ih =>
      obtain ⟨front, whole, derived⟩ := ih same
      exact ⟨front, whole, .choiceFirst derived⟩
  | choiceSecond first second _ ih =>
      obtain ⟨front, whole, derived⟩ := ih same
      exact ⟨front, whole, .choiceSecond derived⟩
  | present body ih =>
      obtain ⟨front, whole, derived⟩ := ih same
      exact ⟨front, whole, .present derived⟩
  | absent body _ =>
      cases same
      exact ⟨[], rfl, .absent⟩
  | more body rest ihBody ihRest =>
      obtain ⟨front, rfl, derivedFront⟩ := ihBody rfl
      obtain ⟨middle, rfl, derivedMiddle⟩ := ihRest same
      exact ⟨front ++ middle, (List.append_assoc ..).symm, .more derivedFront derivedMiddle⟩
  | done body _ =>
      cases same
      exact ⟨[], rfl, .done⟩
  | notSign _ | notLetter _ | notFinish _ _ | notSeq _ _ => cases same

/-! ## Derived texts are texts of phrases -/

/-- A repetition derives the texts that are made of parts. -/
theorem exists_parts_of_many {a : Body} {s : List Char} (derived : Derives (.many a) s) :
    ∃ parts : List (List Char), s = parts.flatten ∧ ∀ part ∈ parts, Derives a part := by
  generalize same : Body.many a = b at derived
  induction derived with
  | done => exact ⟨[], rfl, fun part member => (List.not_mem_nil member).elim⟩
  | more body rest _ ih =>
      cases same
      obtain ⟨parts, rfl, each⟩ := ih rfl
      exact ⟨_ :: parts, rfl, List.forall_mem_cons.mpr ⟨body, each⟩⟩
  | _ => cases same

theorem eq_of_derives_sign {c : Char} {s : List Char} (derived : Derives (.sign c) s) :
    s = [c] := by
  cases derived
  rfl

theorem exists_operand_of_primes (o : Operand) {parts : List (List Char)}
    (each : ∀ part ∈ parts, Derives (.rule .prime) part) :
    ∃ o' : Operand, o'.text = o.text ++ parts.flatten := by
  induction parts generalizing o with
  | nil => exact ⟨o, (List.append_nil _).symm⟩
  | cons first rest ih =>
      obtain ⟨head, tail⟩ := List.forall_mem_cons.mp each
      obtain ⟨o', text⟩ := ih (.complement o) tail
      cases head with
      | rule body =>
          cases eq_of_derives_sign body
          exact ⟨o', by rw [text, Operand.text, List.flatten_cons, List.append_assoc]⟩

theorem replicate_of_negs {parts : List (List Char)}
    (each : ∀ part ∈ parts, Derives (.rule .neg) part) :
    parts.flatten = List.replicate parts.length '!' := by
  induction parts with
  | nil => rfl
  | cons first rest ih =>
      obtain ⟨head, tail⟩ := List.forall_mem_cons.mp each
      cases head with
      | rule body =>
          cases eq_of_derives_sign body
          rw [List.flatten_cons, ih tail, List.length_cons, List.replicate_succ,
            List.singleton_append]

section Shorter

/- A group holds a shorter text, for which the statement about sums is known already. -/
variable {n : Nat}
  (shorter : ∀ t : List Char, t.length < n → Derives (.rule .disj) t → ∃ sum : Sum, sum.text = t)

include shorter

theorem exists_operand_of_primary {s : List Char} (length : s.length ≤ n)
    (derived : Derives (.rule .primary) s) : ∃ o : Operand, o.text = s := by
  cases derived with
  | rule body =>
      cases body with
      | choiceFirst group =>
          cases group with
          | rule body =>
              cases body with
              | seq opening rest =>
                  cases eq_of_derives_sign opening
                  cases rest with
                  | seq inner closing =>
                      cases eq_of_derives_sign closing
                      obtain ⟨sum, rfl⟩ := shorter _ (by simp at length; omega) inner
                      exact ⟨.group sum, rfl⟩
      | choiceSecond rest =>
          cases rest with
          | choiceFirst one =>
              cases one with
              | rule body => exact ⟨.digit true, (eq_of_derives_sign body).symm⟩
          | choiceSecond rest =>
              cases rest with
              | choiceFirst zero =>
                  cases zero with
                  | rule body => exact ⟨.digit false, (eq_of_derives_sign body).symm⟩
              | choiceSecond literal =>
                  cases literal with
                  | rule body =>
                      cases body with
                      | letter alpha =>
                          rw [← Variable.isSome_ofLetter?] at alpha
                          obtain ⟨v, found⟩ := Option.isSome_iff_exists.mp alpha
                          refine ⟨.letter v, ?_⟩
                          rw [Operand.text, Variable.letter_of_ofLetter? found]

theorem exists_factor {s : List Char} (length : s.length ≤ n)
    (derived : Derives (.rule .factor) s) : ∃ f : Factor, f.text = s := by
  cases derived with
  | rule body =>
      cases body with
      | seq negs rest =>
          cases rest with
          | seq primary primes =>
              obtain ⟨bangs, rfl, eachNeg⟩ := exists_parts_of_many negs
              obtain ⟨marks, rfl, eachPrime⟩ := exists_parts_of_many primes
              obtain ⟨o, rfl⟩ := exists_operand_of_primary shorter
                (by simp only [List.length_append] at length; omega) primary
              obtain ⟨o', text⟩ := exists_operand_of_primes o eachPrime
              exact ⟨.mk bangs.length o', by rw [Factor.text, text, replicate_of_negs eachNeg]⟩

theorem exists_product_of_parts (p : Product) {parts : List (List Char)}
    (length : parts.flatten.length ≤ n)
    (each : ∀ part ∈ parts, Derives (.seq (.optional (.sign '·')) (.rule .factor)) part) :
    ∃ p' : Product, p'.text = p.text ++ parts.flatten := by
  induction parts generalizing p with
  | nil => exact ⟨p, (List.append_nil _).symm⟩
  | cons first rest ih =>
      obtain ⟨head, tail⟩ := List.forall_mem_cons.mp each
      rw [List.flatten_cons, List.length_append] at length
      cases head with
      | seq sign factor =>
          rw [List.length_append] at length
          obtain ⟨f, rfl⟩ := exists_factor shorter (by omega) factor
          cases sign with
          | absent =>
              obtain ⟨p', text⟩ := ih (.times p false f) (by omega) tail
              exact ⟨p', by simp [text, Product.text]⟩
          | present dot =>
              cases eq_of_derives_sign dot
              obtain ⟨p', text⟩ := ih (.times p true f) (by omega) tail
              exact ⟨p', by simp [text, Product.text]⟩

theorem exists_product {s : List Char} (length : s.length ≤ n)
    (derived : Derives (.rule .conj) s) : ∃ p : Product, p.text = s := by
  cases derived with
  | rule body =>
      cases body with
      | seq factor rest =>
          obtain ⟨parts, rfl, each⟩ := exists_parts_of_many rest
          rw [List.length_append] at length
          obtain ⟨f, rfl⟩ := exists_factor shorter (by omega) factor
          exact exists_product_of_parts shorter (.one f) (by omega) each

theorem exists_sum_of_parts (sum : Sum) {parts : List (List Char)}
    (length : parts.flatten.length ≤ n)
    (each : ∀ part ∈ parts, Derives (.seq (.sign '+') (.rule .conj)) part) :
    ∃ sum' : Sum, sum'.text = sum.text ++ parts.flatten := by
  induction parts generalizing sum with
  | nil => exact ⟨sum, (List.append_nil _).symm⟩
  | cons first rest ih =>
      obtain ⟨head, tail⟩ := List.forall_mem_cons.mp each
      rw [List.flatten_cons, List.length_append] at length
      cases head with
      | seq sign product =>
          cases eq_of_derives_sign sign
          rw [List.length_append] at length
          obtain ⟨p, rfl⟩ := exists_product shorter (by omega) product
          obtain ⟨sum', text⟩ := ih (.plus sum p) (by omega) tail
          exact ⟨sum', by simp [text, Sum.text]⟩

end Shorter

theorem exists_sum_of_disj {s : List Char} (derived : Derives (.rule .disj) s) :
    ∃ sum : Sum, sum.text = s := by
  generalize length : s.length = n
  induction n using Nat.strongRecOn generalizing s with
  | ind n ih =>
      have shorter (t : List Char) (less : t.length < n) (derived : Derives (.rule .disj) t) :
          ∃ sum : Sum, sum.text = t := ih t.length less derived rfl
      cases derived with
      | rule body =>
          cases body with
          | seq product rest =>
              obtain ⟨parts, rfl, each⟩ := exists_parts_of_many rest
              rw [List.length_append] at length
              obtain ⟨p, rfl⟩ := exists_product shorter (by omega) product
              exact exists_sum_of_parts shorter (.one p) (by omega) each

/-! ## Texts of phrases are matched -/

theorem not_matches_sign {c : Char} {s : List Char} (other : ∀ d ∈ s.head?, d ≠ c) :
    Matches (.sign c) s none :=
  .notSign fun same => other c same rfl

theorem not_matches_primary {s : List Char} (other : ∀ c ∈ s.head?, startsOperand c = false) :
    Matches (.rule .primary) s none := by
  have ne (d : Char) (starts : startsOperand d = true) : ∀ c ∈ s.head?, c ≠ d := by
    rintro c head rfl
    exact Bool.noConfusion ((other c head).symm.trans starts)
  refine .rule (.choiceSecond (.rule (.notSeq (not_matches_sign (ne '(' rfl)))) ?_)
  refine .choiceSecond (.rule (not_matches_sign (ne '1' rfl))) ?_
  refine .choiceSecond (.rule (not_matches_sign (ne '0' rfl))) (.rule (.notLetter ?_))
  intro c head
  by_contra alpha
  have starts : startsOperand c = true := by simp_all [startsOperand, isLeafChar]
  exact ne c starts c head rfl

theorem not_matches_factor {s : List Char} (other : ∀ c ∈ s.head?, startsOperand c = false) :
    Matches (.rule .factor) s none := by
  refine .rule (.seq (.done (.rule (not_matches_sign ?_))) (.notSeq (not_matches_primary other)))
  rintro c head rfl
  exact Bool.noConfusion (other _ head)

theorem not_matches_cons {c d : Char} (other : c ≠ d) (rest : List Char) :
    Matches (.sign d) (c :: rest) none :=
  .notSign fun same => other (Option.some.inj same)

/-- A product ends here: the text does, or the next product begins, or the group closes. -/
def EndsProduct (t : List Char) : Prop := ∀ c ∈ t.head?, c = '+' ∨ c = ')'

theorem EndsProduct.ne {t : List Char} (stop : EndsProduct t) {d : Char}
    (other : d ≠ '+' ∧ d ≠ ')') : ∀ c ∈ t.head?, c ≠ d := by
  rintro c head rfl
  rcases stop c head with same | same
  · exact other.1 same
  · exact other.2 same

/-- No factor is taken where a product ends. -/
theorem EndsProduct.matches_many {t : List Char} (stop : EndsProduct t) :
    Matches (.many (.seq (.optional (.sign '·')) (.rule .factor))) t (some t) := by
  refine .done (.seq (.absent (not_matches_sign (stop.ne (by decide)))) (not_matches_factor ?_))
  intro c head
  rcases stop c head with rfl | rfl
  · rfl
  · rfl

mutual

/-- The products of a sum are matched one after another, and then those that may follow. -/
theorem matches_sum (s : Sum) {t u : List Char} (stop : EndsProduct t)
    (rest : Matches (.many (.seq (.sign '+') (.rule .conj))) t (some u)) :
    Matches (.rule .disj) (s.text ++ t) (some u) := by
  match s with
  | .one p =>
      exact .rule (.seq (matches_product p (stop.ne (by decide)) stop.matches_many) rest)
  | .plus s p =>
      have next : Matches (.rule .conj) (p.text ++ t) (some t) :=
        matches_product p (stop.ne (by decide)) stop.matches_many
      have begins : EndsProduct ('+' :: (p.text ++ t)) := by
        rintro c head
        cases head
        exact Or.inl rfl
      have whole := matches_sum s begins (.more (.seq (.sign '+' _) next) rest)
      rwa [Sum.text, List.append_assoc, List.cons_append]

/-- The factors of a product are matched one after another, and then those that may follow. -/
theorem matches_product (p : Product) {t u : List Char} (stop : ∀ c ∈ t.head?, c ≠ '\x27')
    (rest : Matches (.many (.seq (.optional (.sign '·')) (.rule .factor))) t (some u)) :
    Matches (.rule .conj) (p.text ++ t) (some u) := by
  match p with
  | .one (.mk bangs o) => exact .rule (.seq (matches_factor bangs o stop) rest)
  | .times p dot (.mk bangs o) =>
      have next := matches_factor bangs o stop
      obtain ⟨d, tail, text, starts⟩ := Reader.exists_startsOperand_factor (.mk bangs o)
      have ne (c : Char) (other : startsOperand c = false) : d ≠ c := by
        rintro rfl
        exact Bool.noConfusion (starts.symm.trans other)
      rw [Product.text, List.append_assoc, List.append_assoc]
      cases dot with
      | true =>
          refine matches_product p ?_ (.more (.seq (.present (.sign '·' _)) next) rest)
          rintro c head
          cases head
          decide
      | false =>
          rw [text] at next ⊢
          refine matches_product p ?_ (.more (.seq (.absent (not_matches_sign ?_)) next) rest)
          · rintro c head
            cases head
            exact ne _ rfl
          · rintro c head
            cases head
            exact ne _ rfl

theorem matches_factor (bangs : Nat) (o : Operand) {t : List Char}
    (stop : ∀ c ∈ t.head?, c ≠ '\x27') :
    Matches (.rule .factor) ((Factor.mk bangs o).text ++ t) (some t) := by
  have operand := matches_operand o (.done (.rule (not_matches_sign stop)))
  refine .rule (.seq (t := o.text ++ t) ?_ operand)
  obtain ⟨c, rest, text, _, notBang⟩ := Reader.exists_startsOperand_operand o
  rw [Factor.text, List.append_assoc]
  induction bangs with
  | zero =>
      refine .done (.rule (not_matches_sign ?_))
      rw [text]
      rintro d head
      cases head
      exact notBang
  | succ n ih => exact .more (.rule (.sign '!' _)) ih

theorem matches_operand (o : Operand) {t u : List Char}
    (rest : Matches (.many (.rule .prime)) t (some u)) :
    Matches (.seq (.rule .primary) (.many (.rule .prime))) (o.text ++ t) (some u) := by
  match o with
  | .letter v =>
      obtain ⟨alpha, group, one, zero⟩ := v.letter_spec
      refine .seq (.rule (.choiceSecond (.rule (.notSeq (not_matches_cons group t))) ?_)) rest
      refine .choiceSecond (.rule (not_matches_cons one t)) ?_
      exact .choiceSecond (.rule (not_matches_cons zero t)) (.rule (.letter t alpha))
  | .digit true =>
      refine .seq (.rule (.choiceSecond (.rule (.notSeq (not_matches_cons ?_ t))) ?_)) rest
      · decide
      · exact .choiceFirst (.rule (.sign '1' t))
  | .digit false =>
      refine .seq (.rule (.choiceSecond (.rule (.notSeq (not_matches_cons ?_ t))) ?_)) rest
      · decide
      · refine .choiceSecond (.rule (not_matches_cons ?_ t)) (.choiceFirst (.rule (.sign '0' t)))
        decide
  | .group s =>
      have closes : EndsProduct (')' :: t) := by
        rintro c head
        cases head
        exact Or.inr rfl
      have ends : Matches (.sign '+') (')' :: t) none := not_matches_cons (by decide) t
      have inner := matches_sum s closes (.done (.notSeq ends))
      have text : (Operand.group s).text ++ t = '(' :: (s.text ++ ')' :: t) := by
        simp [Operand.text]
      rw [text]
      exact .seq (.rule (.choiceFirst (.rule (.seq (.sign '(' _) (.seq inner (.sign ')' t)))))) rest
  | .complement o =>
      rw [Operand.text, List.append_assoc]
      exact matches_operand o (.more (.rule (.sign '\x27' _)) rest)

end

theorem matches_expr_of_text (sum : Sum) : Matches (.rule .expr) sum.text (some []) := by
  have stop : EndsProduct [] := nofun
  have whole := matches_sum sum stop (.done (.notSeq (.notSign nofun)))
  rw [List.append_nil] at whole
  exact .rule (.seq whole .finish)

theorem exists_sum_of_expr {s : List Char} (derived : Derives (.rule .expr) s) :
    ∃ sum : Sum, sum.text = s := by
  cases derived with
  | rule body =>
      cases body with
      | seq whole ends =>
          cases ends
          rw [List.append_nil]
          exact exists_sum_of_disj whole

/-- The texts of sums are those that the grammar derives. -/
theorem derives_expr_iff (s : List Char) :
    Derives (.rule .expr) s ↔ ∃ sum : Sum, sum.text = s := by
  constructor
  · exact exists_sum_of_expr
  · rintro ⟨sum, rfl⟩
    obtain ⟨front, whole, derived⟩ := derives_of_matches (matches_expr_of_text sum)
    rwa [whole, List.append_nil]

/-- The texts of sums are those that the matcher accepts as a whole. -/
theorem matches_expr_iff (s : List Char) :
    Matches (.rule .expr) s (some []) ↔ ∃ sum : Sum, sum.text = s := by
  constructor
  · intro found
    obtain ⟨front, whole, derived⟩ := derives_of_matches found
    rw [List.append_nil] at whole
    exact exists_sum_of_expr (whole ▸ derived)
  · rintro ⟨sum, rfl⟩
    exact matches_expr_of_text sum

end SwitchingLogic.Formula.Grammar
