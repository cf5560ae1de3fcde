import SwitchingLogic.Proofs.Expr.Values
import SwitchingLogic.Satisfaction.Problem

/-!
# Values under partial knowledge

Knowing more never changes a value that was known before, for expressions and for all kinds of
constraints, and the full knowledge of a state leaves nothing open.  So a problem that is false
under partial knowledge has no solution with the known values, and one whose variables are all
known is decided.
-/

namespace SwitchingLogic

def State.known (s : State) (v : Variable) : Option Bool := some (s.isActive v)

/-- All that the first knows about the variables, the second knows as well. -/
def Extends (known known' : Variable → Option Bool) : Prop :=
  ∀ v value, known v = some value → known' v = some value

section Connective

theorem Connective.eval?_extends (op : Connective) {a b a' b' : Option Bool}
    (left : ∀ value, a = some value → a' = some value)
    (right : ∀ value, b = some value → b' = some value) {value : Bool}
    (decided : op.eval? a b = some value) : op.eval? a' b' = some value := by
  unfold eval? at *
  by_cases absorbed : a = some op.annihilator ∨ b = some op.annihilator
  · rw [if_pos absorbed] at decided
    rw [if_pos (absorbed.imp (left _) (right _))]
    exact decided
  · rw [if_neg absorbed] at decided
    cases a with
    | none => cases decided
    | some x =>
        cases b with
        | none => simp at decided
        | some y =>
            rw [left x rfl, right y rfl, if_neg absorbed]
            exact decided

theorem Connective.eval?_some (op : Connective) (a b : Bool) :
    op.eval? (some a) (some b) = some (op.eval a b) := by
  cases op <;> cases a <;> cases b <;> rfl

end Connective

namespace Expr

theorem eval?_extends {known known' : Variable → Option Bool} (more : Extends known known')
    (e : Expr) {value : Bool} (decided : e.eval? known = some value) :
    e.eval? known' = some value := by
  induction e generalizing value with
  | var v => exact more v value decided
  | const b => exact decided
  | not e ih =>
      obtain ⟨inner, found, rfl⟩ := Option.map_eq_some_iff.mp decided
      exact Option.map_eq_some_iff.mpr ⟨inner, ih found, rfl⟩
  | binary op l r ihl ihr =>
      exact op.eval?_extends (fun _ => ihl) (fun _ => ihr) decided

theorem eval?_congr {known known' : Variable → Option Bool} (e : Expr)
    (same : ∀ v, e.vars.contains v = true → known v = known' v) :
    e.eval? known = e.eval? known' := by
  induction e with
  | var v => exact same v (by rw [vars, VarSet.contains_singleton, decide_eq_true rfl])
  | const b => rfl
  | not e ih => rw [eval?, eval?, ih same]
  | binary op l r ihl ihr =>
      have left (v : Variable) (member : l.vars.contains v = true) : known v = known' v :=
        same v (by rw [vars, VarSet.contains_union, member, Bool.true_or])
      have right (v : Variable) (member : r.vars.contains v = true) : known v = known' v :=
        same v (by rw [vars, VarSet.contains_union, member, Bool.or_true])
      rw [eval?, eval?, ihl left, ihr right]

theorem eval?_known (e : Expr) (s : State) : e.eval? s.known = some (e.eval s) := by
  induction e with
  | var v => rfl
  | const b => rfl
  | not e ih =>
      rw [eval?, ih]
      rfl
  | binary op l r ihl ihr => rw [eval?, ihl, ihr, op.eval?_some, eval]

/-- A value under partial knowledge is the value in every state with the known values. -/
theorem eval_of_eval? {known : Variable → Option Bool} {s : State} (agrees : Extends known s.known)
    {e : Expr} {value : Bool} (decided : e.eval? known = some value) : e.eval s = value := by
  have full := eval?_extends agrees e decided
  rw [eval?_known] at full
  exact Option.some.inj full

end Expr

namespace Constraint

section Values

variable {known known' : Variable → Option Bool} (more : Extends known known')
include more

theorem count_some_le (vs : List Variable) (value : Bool) :
    (vs.map known).count (some value) ≤ (vs.map known').count (some value) := by
  induction vs with
  | nil => exact Nat.le_refl _
  | cons v rest ih =>
      rw [List.map_cons, List.map_cons, List.count_cons, List.count_cons]
      by_cases found : known v = some value
      · rw [found, more v value found]
        exact Nat.add_le_add_right ih _
      · rw [if_neg (by rwa [beq_iff_eq])]
        exact ih.trans (Nat.le_add_right _ _)

/-- Where nothing is open, nothing is left to be added. -/
theorem map_eq_of_count_none {vs : List Variable} (closed : (vs.map known).count none = 0) :
    vs.map known' = vs.map known := by
  refine List.map_congr_left fun v listed => ?_
  cases found : known v with
  | none => exact (List.count_eq_zero.mp closed (List.mem_map.mpr ⟨v, listed, found⟩)).elim
  | some value => exact more v value found

theorem allEqual?_extends (vs : List Variable) {target value : Bool}
    (decided : allEqual? (vs.map known) target = some value) :
    allEqual? (vs.map known') target = some value := by
  unfold allEqual? at *
  by_cases differs : (vs.map known).contains (some !target) = true
  · rw [if_pos differs] at decided
    have positive := List.count_pos_iff.mpr (List.contains_iff_mem.mp differs)
    have stays := List.count_pos_iff.mp (positive.trans_le (count_some_le more vs _))
    rw [if_pos (List.contains_iff_mem.mpr stays)]
    exact decided
  · rw [if_neg differs] at decided
    by_cases closed : (vs.map known).all Option.isSome = true
    · rw [map_eq_of_count_none more, if_neg differs]
      · exact decided
      · rw [List.count_eq_zero]
        intro open'
        exact Bool.noConfusion (List.all_eq_true.mp closed none open')
    · rw [if_neg closed] at decided
      cases decided

/-- The shape of the counting constraints: too many true places settle the verdict early, and
otherwise it is read off the final number. -/
theorem tally_extends (vs : List Variable) (bound : Nat) (early : Bool) (final : Nat → Bool)
    {value : Bool}
    (decided : (if bound < (vs.map known).count (some true) then some early
      else if (vs.map known).count none = 0 then some (final ((vs.map known).count (some true)))
      else none) = some value) :
    (if bound < (vs.map known').count (some true) then some early
      else if (vs.map known').count none = 0 then some (final ((vs.map known').count (some true)))
      else none) = some value := by
  by_cases above : bound < (vs.map known).count (some true)
  · rw [if_pos above] at decided
    rw [if_pos (above.trans_le (count_some_le more vs true))]
    exact decided
  · by_cases closed : (vs.map known).count none = 0
    · rw [map_eq_of_count_none more closed]
      exact decided
    · rw [if_neg above, if_neg closed] at decided
      cases decided

theorem eval?_extends (c : Constraint) {value : Bool} (decided : c.eval? known = some value) :
    c.eval? known' = some value := by
  cases c with
  | equals vs target => exact allEqual?_extends more vs decided
  | notEquals vs target => exact allEqual?_extends more vs decided
  | atLeastOne vs => exact tally_extends more vs 0 true (fun _ => false) decided
  | atMostOne vs => exact tally_extends more vs 1 false (fun _ => true) decided
  | exactlyOne vs => exact tally_extends more vs 1 false (fun trues => trues == 1) decided

end Values

theorem eval?_congr {known known' : Variable → Option Bool} (c : Constraint)
    (same : ∀ v, c.vars.contains v = true → known v = known' v) :
    c.eval? known = c.eval? known' := by
  have values : c.listed.map known = c.listed.map known' := by
    refine List.map_congr_left fun v listed => same v ?_
    rw [vars, VarSet.contains_ofList]
    exact decide_eq_true listed
  simp only [eval?, values]

theorem count_none_known (s : State) (vs : List Variable) : (vs.map s.known).count none = 0 := by
  rw [List.count_eq_zero]
  intro open'
  obtain ⟨v, _, unknown⟩ := List.mem_map.mp open'
  cases unknown

theorem all_isSome_known (s : State) (vs : List Variable) :
    (vs.map s.known).all Option.isSome = true := by
  rw [List.all_map]
  exact List.all_eq_true.mpr fun v _ => rfl

theorem isSome_eval?_known (c : Constraint) (s : State) : (c.eval? s.known).isSome = true := by
  cases c with
  | equals | notEquals =>
      simp only [eval?, allEqual?, all_isSome_known, if_true]
      split <;> rfl
  | atLeastOne | atMostOne | exactlyOne =>
      simp only [eval?, count_none_known, if_true]
      split <;> rfl

theorem eval?_known (c : Constraint) (s : State) : c.eval? s.known = some (c.eval s) := by
  obtain ⟨value, found⟩ := Option.isSome_iff_exists.mp (c.isSome_eval?_known s)
  have whole : c.eval s = value := congrArg (Option.getD · false) found
  rw [found, whole]

/-- The value of a constraint depends on its variables only. -/
theorem eval_congr (c : Constraint) {s t : State}
    (same : ∀ v, c.vars.contains v = true → s.isActive v = t.isActive v) :
    c.eval s = c.eval t := by
  have known : c.eval? s.known = c.eval? t.known :=
    c.eval?_congr fun v listed => congrArg some (same v listed)
  rw [eval?_known, eval?_known] at known
  exact Option.some.inj known

theorem eval_of_eval? {known : Variable → Option Bool} {s : State} (agrees : Extends known s.known)
    {c : Constraint} {value : Bool} (decided : c.eval? known = some value) : c.eval s = value := by
  have full := eval?_extends agrees c decided
  rw [eval?_known] at full
  exact Option.some.inj full

end Constraint

namespace Problem

theorem mem_vars {p : Problem} {v : Variable} :
    v ∈ p.vars ↔ p.expr.vars.contains v = true ∨ ∃ c ∈ p.constraints, v ∈ c.listed := by
  have gathered (cs : List Constraint) (start : VarSet) :
      (cs.foldl (fun vs c => vs.union c.vars) start).contains v = true ↔
        start.contains v = true ∨ ∃ c ∈ cs, v ∈ c.listed := by
    induction cs generalizing start with
    | nil => simp
    | cons c rest ih =>
        rw [List.foldl_cons, ih, VarSet.contains_union, Bool.or_eq_true, Constraint.vars,
          VarSet.contains_ofList, decide_eq_true_eq, or_assoc]
        simp only [List.mem_cons, exists_eq_or_imp]
  rw [vars, VarSet.mem_toList, gathered]

theorem isSolution_iff {p : Problem} {s : State} :
    p.isSolution s = true ↔ p.expr.eval s = true ∧ ∀ c ∈ p.constraints, c.eval s = true := by
  rw [isSolution, Bool.and_eq_true, List.all_eq_true]

theorem constraintStatus_eq_false_iff {known : Variable → Option Bool} {verdict : Option Bool}
    (cs : List Constraint) (open' : verdict ≠ some false) :
    constraintStatus known verdict cs = some false ↔ ∃ c ∈ cs, c.eval? known = some false := by
  induction cs generalizing verdict with
  | nil =>
      refine iff_of_false open' ?_
      rintro ⟨c, none, _⟩
      cases none
  | cons c rest ih =>
      simp only [List.mem_cons, exists_eq_or_imp]
      cases answer : c.eval? known with
      | none =>
          have later := ih (nofun : (none : Option Bool) ≠ some false)
          rw [constraintStatus, answer]
          simp [later]
      | some value =>
          cases value with
          | true =>
              rw [constraintStatus, answer]
              simp [ih open']
          | false =>
              rw [constraintStatus, answer]
              simp

theorem constraintStatus_eq_true_iff {known : Variable → Option Bool} {verdict : Option Bool}
    (cs : List Constraint) :
    constraintStatus known verdict cs = some true ↔
      verdict = some true ∧ ∀ c ∈ cs, c.eval? known = some true := by
  induction cs generalizing verdict with
  | nil => simp [constraintStatus]
  | cons c rest ih =>
      rw [List.forall_mem_cons]
      cases answer : c.eval? known with
      | none =>
          rw [constraintStatus, answer]
          simp [ih]
      | some value =>
          cases value with
          | true =>
              rw [constraintStatus, answer]
              simp [ih]
          | false =>
              rw [constraintStatus, answer]
              simp

theorem status_eq_false_iff {p : Problem} {known : Variable → Option Bool} :
    p.status known = some false ↔
      p.expr.eval? known = some false ∨ ∃ c ∈ p.constraints, c.eval? known = some false := by
  unfold status
  cases answer : p.expr.eval? known with
  | none => simp [constraintStatus_eq_false_iff]
  | some value =>
      cases value with
      | true => simp [constraintStatus_eq_false_iff]
      | false => simp

theorem status_eq_true_iff {p : Problem} {known : Variable → Option Bool} :
    p.status known = some true ↔
      p.expr.eval? known = some true ∧ ∀ c ∈ p.constraints, c.eval? known = some true := by
  unfold status
  cases answer : p.expr.eval? known with
  | none => simp [constraintStatus_eq_true_iff]
  | some value =>
      cases value with
      | true => simp [constraintStatus_eq_true_iff]
      | false => simp

/-- What partial knowledge says about the problem is so in every state with the known values. -/
theorem isSolution_of_status {p : Problem} {known : Variable → Option Bool} {value : Bool}
    (decided : p.status known = some value) {s : State} (agrees : Extends known s.known) :
    p.isSolution s = value := by
  cases value with
  | true =>
      obtain ⟨holds, all⟩ := status_eq_true_iff.mp decided
      apply isSolution_iff.mpr
      exact ⟨Expr.eval_of_eval? agrees holds,
        fun c member => Constraint.eval_of_eval? agrees (all c member)⟩
  | false =>
      apply Bool.eq_false_iff.mpr
      intro solved
      obtain ⟨holds, all⟩ := isSolution_iff.mp solved
      rcases status_eq_false_iff.mp decided with fails | ⟨c, member, fails⟩
      · exact Bool.noConfusion ((Expr.eval_of_eval? agrees fails).symm.trans holds)
      · exact Bool.noConfusion ((Constraint.eval_of_eval? agrees fails).symm.trans (all c member))

/-- Where all variables are known, the problem is solved or not. -/
theorem status_eq_isSolution {p : Problem} {known : Variable → Option Bool} {s : State}
    (same : ∀ v ∈ p.vars, known v = s.known v) : p.status known = some (p.isSolution s) := by
  have expr : p.expr.eval? known = some (p.expr.eval s) := by
    rw [← Expr.eval?_known]
    exact p.expr.eval?_congr fun v member => same v (mem_vars.mpr (Or.inl member))
  have constraint (c : Constraint) (member : c ∈ p.constraints) :
      c.eval? known = some (c.eval s) := by
    rw [← Constraint.eval?_known]
    refine c.eval?_congr fun v inside => same v (mem_vars.mpr (Or.inr ⟨c, member, ?_⟩))
    rw [Constraint.vars, VarSet.contains_ofList] at inside
    exact of_decide_eq_true inside
  have solved : p.status known = some true ↔ p.isSolution s = true := by
    rw [status_eq_true_iff, isSolution_iff, expr, Option.some_inj]
    refine and_congr_right fun _ => forall₂_congr fun c member => ?_
    rw [constraint c member, Option.some_inj]
  have failed : p.status known = some false ↔ ¬ p.isSolution s = true := by
    rw [status_eq_false_iff, isSolution_iff, expr, Option.some_inj, not_and_or, Bool.not_eq_true]
    simp only [not_forall, exists_prop]
    refine or_congr_right (exists_congr fun c => and_congr_right fun member => ?_)
    rw [constraint c member, Option.some_inj, Bool.not_eq_true]
  by_cases solution : p.isSolution s = true
  · rw [solved.mpr solution, solution]
  · rw [failed.mpr solution, Bool.eq_false_iff.mpr solution]

/-- Only the variables that occur in the problem matter. -/
theorem isSolution_congr {p : Problem} {s t : State}
    (same : ∀ v ∈ p.vars, s.isActive v = t.isActive v) : p.isSolution s = p.isSolution t := by
  have known (v : Variable) (member : v ∈ p.vars) : s.known v = t.known v :=
    congrArg some (same v member)
  apply Option.some.inj
  rw [← status_eq_isSolution known, ← status_eq_isSolution fun _ _ => rfl]

end Problem

end SwitchingLogic
