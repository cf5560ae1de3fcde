import SwitchingLogic.Proofs.Satisfaction.Partial

/-!
# What constraints demand

A constraint speaks about the variables that are listed, and not about the list.  Its value is
what it demands, with one exception: where at most one or exactly one variable may be true, the
places of the list are counted, and a true variable that is listed again counts as another one.
So the order of the list never matters, and for the other kinds repetitions do not matter
either.
-/

namespace SwitchingLogic

/-- A list is short if its members are all the same and none of them is repeated. -/
theorem length_le_one_iff_forall_eq {α : Type} {xs : List α} :
    xs.length ≤ 1 ↔ (∀ x ∈ xs, ∀ y ∈ xs, x = y) ∧ xs.Nodup := by
  cases xs with
  | nil => simp
  | cons x rest =>
      cases rest with
      | nil => simp
      | cons y rest =>
          refine iff_of_false (by simp) ?_
          rintro ⟨equal, distinct⟩
          have twice : x = y :=
            equal x List.mem_cons_self y (List.mem_cons_of_mem x List.mem_cons_self)
          exact (List.nodup_cons.mp distinct).1 (twice ▸ List.mem_cons_self)

/-- The variables of a list that are true, each as often as it is listed. -/
def State.trues (s : State) (vs : List Variable) : List Variable := vs.filter s.isActive

theorem State.mem_trues {s : State} {vs : List Variable} {v : Variable} :
    v ∈ s.trues vs ↔ v ∈ vs ∧ s.isActive v = true :=
  List.mem_filter

namespace Constraint

/-- What the constraint says about its variables, however they are listed. -/
def Demands (s : State) : Constraint → Prop
  | .equals vs value => ∀ v ∈ vs, s.isActive v = value
  | .notEquals vs value => ∀ v ∈ vs, s.isActive v ≠ value
  | .atLeastOne vs => ∃ v ∈ vs, s.isActive v = true
  | .atMostOne vs => ∀ v ∈ vs, s.isActive v = true → ∀ w ∈ vs, s.isActive w = true → v = w
  | .exactlyOne vs => ∃! v, v ∈ vs ∧ s.isActive v = true

/-- Where true variables are counted, none of them is listed again. -/
def CountsOnce (s : State) : Constraint → Prop
  | .equals _ _ | .notEquals _ _ | .atLeastOne _ => True
  | .atMostOne vs | .exactlyOne vs => (s.trues vs).Nodup

/-- The constraint of the same kind, and for the same value, on the variables of a list. -/
def relist (vs : List Variable) : Constraint → Constraint
  | .equals _ value => .equals vs value
  | .notEquals _ value => .notEquals vs value
  | .atLeastOne _ => .atLeastOne vs
  | .atMostOne _ => .atMostOne vs
  | .exactlyOne _ => .exactlyOne vs

section Known

variable (s : State) (vs : List Variable)

theorem count_true_known : (vs.map s.known).count (some true) = (s.trues vs).length := by
  rw [List.count_eq_countP, List.countP_map, List.countP_eq_length_filter, State.trues]
  congr 2
  funext v
  exact Bool.eq_iff_iff.mpr (by simp [State.known])

theorem allEqual?_known (value : Bool) :
    allEqual? (vs.map s.known) value = some true ↔ ∀ v ∈ vs, s.isActive v = value := by
  have differs : (vs.map s.known).contains (some !value) = true ↔
      ∃ v ∈ vs, s.isActive v = !value := by
    rw [List.contains_iff_mem, List.mem_map]
    exact exists_congr fun v => and_congr_right fun _ => Option.some_inj
  unfold allEqual?
  split
  case isTrue found =>
      obtain ⟨v, listed, opposite⟩ := differs.mp found
      refine iff_of_false (by simp) fun all => ?_
      exact Bool.eq_not.mp opposite (all v listed)
  case isFalse none' =>
      rw [if_pos (all_isSome_known s vs)]
      refine iff_of_true rfl fun v listed => ?_
      by_contra other
      exact none' (differs.mpr ⟨v, listed, Bool.eq_not.mpr other⟩)

/-- Some listed variable is true. -/
theorem trues_pos_iff : 0 < (s.trues vs).length ↔ (atLeastOne vs).Demands s := by
  rw [List.length_pos_iff_exists_mem, Demands]
  exact exists_congr fun v => State.mem_trues

/-- Not more than one place holds a true variable: there is not more than one such variable, and
it is not repeated. -/
theorem trues_le_one_iff :
    (s.trues vs).length ≤ 1 ↔ (atMostOne vs).Demands s ∧ (s.trues vs).Nodup := by
  rw [length_le_one_iff_forall_eq, Demands]
  simp only [State.mem_trues, and_imp]

/-- One listed variable is true if some are, and no two of them. -/
theorem demands_exactlyOne_iff :
    (exactlyOne vs).Demands s ↔ (atLeastOne vs).Demands s ∧ (atMostOne vs).Demands s := by
  constructor
  · intro one
    refine ⟨one.exists, fun v listed true' w listed' true'' => ?_⟩
    exact one.unique ⟨listed, true'⟩ ⟨listed', true''⟩
  · rintro ⟨some', same⟩
    exact existsUnique_of_exists_of_unique some' fun v w left right =>
      same v left.1 left.2 w right.1 right.2

end Known

/-- The value of a constraint is what it demands, if no true variable is counted again. -/
theorem eval_eq_true_iff (c : Constraint) (s : State) :
    c.eval s = true ↔ c.Demands s ∧ c.CountsOnce s := by
  rw [← Option.some_inj, ← eval?_known]
  cases c with
  | equals vs value => exact (allEqual?_known s vs value).trans (and_iff_left trivial).symm
  | notEquals vs value =>
      refine ((allEqual?_known s vs !value).trans ?_).trans (and_iff_left trivial).symm
      exact forall₂_congr fun v _ => Bool.eq_not
  | atLeastOne vs =>
      simp only [eval?, listed, count_none_known, count_true_known, if_true]
      rw [CountsOnce, and_true, ← trues_pos_iff]
      by_cases some' : 0 < (s.trues vs).length
      · simp [some']
      · simp [some']
  | atMostOne vs =>
      simp only [eval?, listed, count_none_known, count_true_known, if_true]
      rw [CountsOnce, ← trues_le_one_iff]
      by_cases many : 1 < (s.trues vs).length
      · simp [many]
      · simp [many, Nat.le_of_not_lt many]
  | exactlyOne vs =>
      simp only [eval?, listed, count_none_known, count_true_known, if_true]
      rw [CountsOnce, demands_exactlyOne_iff, and_assoc, ← trues_pos_iff, ← trues_le_one_iff]
      by_cases many : 1 < (s.trues vs).length
      · simp [many]
      · rw [if_neg many, Option.some_inj, beq_iff_eq]
        omega

section Relist

variable {vs : List Variable} {c : Constraint}

/-- What is demanded depends on the members of the list only. -/
theorem demands_relist (same : ∀ v, v ∈ vs ↔ v ∈ c.listed) (s : State) :
    (c.relist vs).Demands s ↔ c.Demands s := by
  cases c <;> simp only [listed] at same <;> simp only [relist, Demands, same]

theorem eval_relist {s : State} (same : ∀ v, v ∈ vs ↔ v ∈ c.listed)
    (counts : (c.relist vs).CountsOnce s ↔ c.CountsOnce s) : (c.relist vs).eval s = c.eval s := by
  rw [Bool.eq_iff_iff, eval_eq_true_iff, eval_eq_true_iff, demands_relist same, counts]

/-- The order of the list does not matter. -/
theorem eval_relist_of_perm (reordered : vs.Perm c.listed) (s : State) :
    (c.relist vs).eval s = c.eval s := by
  refine eval_relist (fun v => reordered.mem_iff) ?_
  cases c with
  | equals | notEquals | atLeastOne => rfl
  | atMostOne | exactlyOne => exact (reordered.filter s.isActive).nodup_iff

end Relist

/-- Where exactly one variable may be true, no state will do once every variable is listed
again. -/
theorem eval_exactlyOne_twice (vs : List Variable) (s : State) :
    (exactlyOne (vs ++ vs)).eval s = false := by
  rw [Bool.eq_false_iff]
  intro holds
  obtain ⟨demanded, once⟩ := (eval_eq_true_iff _ s).mp holds
  obtain ⟨v, listed, true'⟩ := demanded.exists
  have member : v ∈ s.trues vs :=
    State.mem_trues.mpr ⟨or_self_iff.mp (List.mem_append.mp listed), true'⟩
  rw [CountsOnce, State.trues, List.filter_append] at once
  exact List.disjoint_of_nodup_append once member member

/-- The value of a constraint is what it demands of the set of its variables, as long as no true
variable is counted again; under this condition all lists of the same variables give the same
value. -/
theorem eval_iff_demands (c : Constraint) {vs : List Variable} (s : State)
    (same : ∀ v, v ∈ vs ↔ v ∈ c.listed) :
    (c.eval s = true ↔ c.Demands s ∧ c.CountsOnce s) ∧
      ((c.relist vs).Demands s ↔ c.Demands s) ∧
      (c.CountsOnce s → (c.relist vs).CountsOnce s → (c.relist vs).eval s = c.eval s) := by
  refine ⟨eval_eq_true_iff c s, demands_relist same s, fun once once' => ?_⟩
  exact eval_relist same (iff_of_true once' once)

/-- A false variable may be listed again. -/
theorem eval_iff_demands_reordered :
    (exactlyOne [⟨1⟩, ⟨0⟩, ⟨1⟩]).eval (State.ofList [⟨0⟩]) =
      (exactlyOne [⟨0⟩, ⟨1⟩]).eval (State.ofList [⟨0⟩]) := by
  have same (v : Variable) : v ∈ [⟨1⟩, ⟨0⟩, ⟨1⟩] ↔ v ∈ (exactlyOne [⟨0⟩, ⟨1⟩]).listed := by
    simp only [listed, List.mem_cons, List.not_mem_nil, or_false]
    tauto
  exact (eval_iff_demands (exactlyOne [⟨0⟩, ⟨1⟩]) (State.ofList [⟨0⟩]) same).2.2
    (List.nodup_singleton _) (List.nodup_singleton _)

/-- A true variable that is listed again makes the counting constraints false, though it is the
only one that is true; so a problem that asks for exactly one is left without a solution. -/
theorem eval_repeated_true :
    let s := State.ofList [⟨0⟩]
    ((atMostOne [⟨0⟩]).eval s = true ∧ (atMostOne [⟨0⟩, ⟨0⟩]).Demands s ∧
        (atMostOne [⟨0⟩, ⟨0⟩]).eval s = false) ∧
      ((exactlyOne [⟨0⟩]).eval s = true ∧ (exactlyOne [⟨0⟩, ⟨0⟩]).Demands s ∧
        (exactlyOne [⟨0⟩, ⟨0⟩]).eval s = false) ∧
      (Problem.mk (.var ⟨0⟩) [exactlyOne [⟨0⟩]]).isSolution s = true ∧
      ∀ t, (Problem.mk (.var ⟨0⟩) [exactlyOne [⟨0⟩, ⟨0⟩]]).isSolution t = false := by
  intro s
  have same (v : Variable) : v ∈ [⟨0⟩, ⟨0⟩] ↔ v ∈ [⟨0⟩] := by
    rw [List.mem_cons, List.mem_singleton, or_self]
  have atMost : (atMostOne [⟨0⟩]).eval s = true := by decide
  have one : (exactlyOne [⟨0⟩]).eval s = true := by decide
  have never (t : State) : (exactlyOne [⟨0⟩, ⟨0⟩]).eval t = false :=
    eval_exactlyOne_twice [⟨0⟩] t
  refine ⟨⟨atMost, ?_, by decide⟩, ⟨one, ?_, never s⟩, by decide, fun t => ?_⟩
  · exact (demands_relist (c := atMostOne [⟨0⟩]) same s).mpr ((eval_eq_true_iff _ s).mp atMost).1
  · exact (demands_relist (c := exactlyOne [⟨0⟩]) same s).mpr ((eval_eq_true_iff _ s).mp one).1
  · rw [Problem.isSolution, List.all_cons, never, Bool.false_and, Bool.and_false]

end Constraint

end SwitchingLogic
