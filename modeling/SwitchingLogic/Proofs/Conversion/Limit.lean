import SwitchingLogic.Proofs.Conversion.Idempotence
import SwitchingLogic.Proofs.Expr.NegationNormal

/-!
# The limit on distributed terms

How many terms an expression expands to can be told without expanding it: the counts of two
operands are multiplied where they are multiplied out, and added where their terms are put
together.  The limit is checked on the lists that additions make, each of which is already
multiplied by all that stands to the left of it.  In an expression without constants nothing makes a
list shorter again, so these checks pass exactly when the whole count is within the limit.
-/

namespace SwitchingLogic.Conversion

/-- The number of terms to which an expression expands, or its negation if `positive` is false. -/
def termCount : Expr → Bool → Nat
  | .var _, _ => 1
  | .const b, positive => if b = positive then 1 else 0
  | .not e, positive => termCount e !positive
  | .binary op l r, positive =>
      if (op == .and) == positive then termCount l positive * termCount r positive
      else termCount l positive + termCount r positive

/-- A list of terms that an expansion goes on with, whether or not it succeeds in the end: the one
that it returns, or one that the expansion of some part returns on the way. -/
inductive Accepts (form : NormalForm) : Expr → Bool → List Term → List Term → Prop where
  | returned {e : Expr} {positive : Bool} {ts us : List Term}
      (done : expand form e positive ts = .ok us) : Accepts form e positive ts us
  | negated {e : Expr} {positive : Bool} {ts us : List Term}
      (inner : Accepts form e (!positive) ts us) : Accepts form (.not e) positive ts us
  | left {op : Connective} {l r : Expr} {positive : Bool} {ts us : List Term}
      (inner : Accepts form l positive ts us) : Accepts form (.binary op l r) positive ts us
  | multiplied {op : Connective} {l r : Expr} {positive : Bool} {ts left us : List Term}
      (both : ((op == .and) == positive) = true) (done : expand form l positive ts = .ok left)
      (inner : Accepts form r positive left us) : Accepts form (.binary op l r) positive ts us
  | gathered {op : Connective} {l r : Expr} {positive : Bool} {ts left us : List Term}
      (one : ¬ ((op == .and) == positive) = true) (done : expand form l positive ts = .ok left)
      (inner : Accepts form r positive ts us) : Accepts form (.binary op l r) positive ts us

variable {form : NormalForm} {e : Expr} {positive : Bool} {ts us : List Term}

/-- Each of the terms at the start is expanded to as many terms as the expression counts. -/
theorem length_expand (done : expand form e positive ts = .ok us) :
    us.length = ts.length * termCount e positive := by
  induction e generalizing positive ts us with
  | var v =>
      cases done
      simp [termCount]
  | const b =>
      cases done
      by_cases same : b = positive <;> simp [termCount, same]
  | not e ih => exact ih done
  | binary op l r ihl ihr =>
      rcases expand_binary_eq_ok_iff.mp done with
        ⟨both, left, doneLeft, doneRight⟩ | ⟨one, left, right, doneLeft, doneRight, _, rfl⟩
      · rw [termCount, if_pos both, ihr doneRight, ihl doneLeft, Nat.mul_assoc]
      · rw [termCount, if_neg one, List.length_append, ihl doneLeft, ihr doneRight, Nat.mul_add]

theorem termCount_pos (free : e.ConstantFree) (positive : Bool) : 0 < termCount e positive := by
  induction e generalizing positive with
  | var v => exact Nat.one_pos
  | const b => exact free.elim
  | not e ih => exact ih free !positive
  | binary op l r ihl ihr =>
      have left := ihl free.1 positive
      have right := ihr free.2 positive
      rw [termCount]
      split
      · exact Nat.mul_pos left right
      · exact Nat.add_pos_left left _

/-- Without constants, terms that are not too many after the expansion are not too many on the way
either. -/
theorem exists_expand_eq_ok (free : e.ConstantFree)
    (few : ts.length * termCount e positive ≤ maxTerms) :
    ∃ us, expand form e positive ts = .ok us := by
  induction e generalizing positive ts with
  | var v => exact ⟨_, rfl⟩
  | const b => exact free.elim
  | not e ih => exact ih free few
  | binary op l r ihl ihr =>
      rw [termCount] at few
      by_cases both : ((op == .and) == positive) = true
      · rw [if_pos both, ← Nat.mul_assoc] at few
        have fewLeft : ts.length * termCount l positive ≤ maxTerms :=
          (Nat.le_mul_of_pos_right _ (termCount_pos free.2 positive)).trans few
        obtain ⟨left, doneLeft⟩ := ihl free.1 fewLeft
        rw [← length_expand doneLeft] at few
        obtain ⟨right, doneRight⟩ := ihr free.2 few
        exact ⟨right, expand_binary_eq_ok_iff.mpr (Or.inl ⟨both, left, doneLeft, doneRight⟩)⟩
      · rw [if_neg both, Nat.mul_add] at few
        obtain ⟨left, doneLeft⟩ := ihl free.1 (le_of_add_le_left few)
        obtain ⟨right, doneRight⟩ := ihr free.2 (le_of_add_le_right few)
        rw [← length_expand doneLeft, ← length_expand doneRight, ← List.length_append] at few
        exact ⟨left ++ right, expand_binary_eq_ok_iff.mpr
          (Or.inr ⟨both, left, right, doneLeft, doneRight, few, rfl⟩)⟩

/-- From a list within the limit no longer list is ever reached. -/
theorem Accepts.length_le (accepted : Accepts form e positive ts us)
    (few : ts.length ≤ maxTerms) : us.length ≤ maxTerms := by
  induction accepted with
  | returned done => exact (length_expand_le done).trans (max_le few le_rfl)
  | negated _ ih => exact ih few
  | left _ ih => exact ih few
  | multiplied _ done _ ih => exact ih ((length_expand_le done).trans (max_le few le_rfl))
  | gathered _ _ _ ih => exact ih few

/-- Without constants an expansion succeeds exactly when the number of terms is within the limit,
and otherwise the limit is the reason why it fails.  An expansion that succeeds has as many terms as
are counted, and no expansion ever goes on with more terms than the limit allows. -/
theorem expand_free_limit (form : NormalForm) (e : Expr) (positive : Bool) :
    (e.ConstantFree →
      ((∃ ts, expand form e positive [.free] = .ok ts) ↔ termCount e positive ≤ maxTerms) ∧
      (expand form e positive [.free] = .error (.tooManyTerms form maxTerms) ↔
        maxTerms < termCount e positive)) ∧
    (∀ ts, expand form e positive [.free] = .ok ts → ts.length = termCount e positive) ∧
    ∀ us, Accepts form e positive [.free] us → us.length ≤ maxTerms := by
  have counted (ts : List Term) (done : expand form e positive [.free] = .ok ts) :
      ts.length = termCount e positive := by
    rw [length_expand done, List.length_singleton, Nat.one_mul]
  have within (us : List Term) (accepted : Accepts form e positive [.free] us) :
      us.length ≤ maxTerms :=
    accepted.length_le (by decide)
  refine ⟨fun free => ?_, counted, within⟩
  have succeeds : (∃ ts, expand form e positive [.free] = .ok ts) ↔
      termCount e positive ≤ maxTerms := by
    constructor
    · rintro ⟨ts, done⟩
      exact counted ts done ▸ within ts (.returned done)
    · intro few
      exact exists_expand_eq_ok free (by rwa [List.length_singleton, Nat.one_mul])
  refine ⟨succeeds, ?_⟩
  rw [← not_le, ← succeeds]
  cases outcome : expand form e positive [.free] with
  | ok ts => simp
  | error x => simp [expand_eq_error outcome]

/-- Twelve factors of two letters reach the limit, and thirteen exceed it. -/
theorem expand_free_limit_reached :
    let pair : Expr := .binary .or (.var ⟨0⟩) (.not (.var ⟨1⟩))
    let e : Expr := Nat.repeat (.binary .and pair) 11 pair
    e.ConstantFree ∧ (Expr.binary .and pair e).ConstantFree ∧
      (∃ ts, expand .sumOfProducts e true [.free] = .ok ts ∧ ts.length = 4096) ∧
      expand .sumOfProducts (.binary .and pair e) true [.free] =
        .error (.tooManyTerms .sumOfProducts 4096) := by
  intro pair e
  have free : e.ConstantFree := by simp [e, pair, Nat.repeat, Expr.ConstantFree]
  have free' : (Expr.binary .and pair e).ConstantFree := ⟨⟨trivial, trivial⟩, free⟩
  have count : termCount e true = 4096 := by decide
  have count' : termCount (.binary .and pair e) true = 8192 := by decide
  obtain ⟨succeeds, counted, _⟩ := expand_free_limit .sumOfProducts e true
  obtain ⟨ts, done⟩ := (succeeds free).1.mpr count.le
  refine ⟨free, free', ⟨ts, done, (counted ts done).trans count⟩, ?_⟩
  refine ((expand_free_limit .sumOfProducts _ true).1 free').2.mpr ?_
  rw [count']
  decide

end SwitchingLogic.Conversion
