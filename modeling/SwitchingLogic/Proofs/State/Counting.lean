import SwitchingLogic.Proofs.State.Rows

/-!
# Rows over some of the variables

What rows say does not depend on the variables listed besides the ones that matter.  Variables with
equal values in two states can be left out of the list without a change to the order of their
rows, and a property that ignores a variable has half as many rows on the list without it.
-/

namespace SwitchingLogic.State

/-- One more digit decides between numbers that are equal without it. -/
theorem compare_double_add (x y : Nat) (b c : Bool) :
    compare (2 * x + b.toNat) (2 * y + c.toNat) = (compare x y).then (compare b.toNat c.toNat) := by
  have small : b.toNat < 2 := Bool.toNat_lt b
  have small' : c.toNat < 2 := Bool.toNat_lt c
  rcases Nat.lt_trichotomy x y with below | rfl | above
  · rw [Nat.compare_eq_lt.mpr below, Nat.compare_eq_lt.mpr (by omega)]
    rfl
  · rw [Nat.compare_eq_eq.mpr (rfl : x = x)]
    change compare (2 * x + b.toNat) (2 * x + c.toNat) = compare b.toNat c.toNat
    rcases Nat.lt_trichotomy b.toNat c.toNat with below | same | above
    · rw [Nat.compare_eq_lt.mpr below, Nat.compare_eq_lt.mpr (by omega)]
    · rw [same, Nat.compare_eq_eq.mpr rfl, Nat.compare_eq_eq.mpr rfl]
    · rw [Nat.compare_eq_gt.mpr above, Nat.compare_eq_gt.mpr (by omega)]
  · rw [Nat.compare_eq_gt.mpr above, Nat.compare_eq_gt.mpr (by omega)]
    rfl

theorem compare_foldl_filter (s t : State) (listed : Variable → Bool) (vs : List Variable)
    (same : ∀ v ∈ vs, listed v = false → s.isActive v = t.isActive v) {x y x' y' : Nat}
    (start : compare x y = compare x' y') :
    compare ((vs.filter listed).foldl (fun index v => 2 * index + (s.isActive v).toNat) x)
        ((vs.filter listed).foldl (fun index v => 2 * index + (t.isActive v).toNat) y) =
      compare (vs.foldl (fun index v => 2 * index + (s.isActive v).toNat) x')
        (vs.foldl (fun index v => 2 * index + (t.isActive v).toNat) y') := by
  induction vs generalizing x y x' y' with
  | nil => exact start
  | cons v rest ih =>
      have later := fun w member => same w (List.mem_cons_of_mem v member)
      cases taken : listed v with
      | true =>
          rw [List.filter_cons_of_pos taken, List.foldl_cons, List.foldl_cons, List.foldl_cons,
            List.foldl_cons]
          refine ih later ?_
          rw [compare_double_add, compare_double_add, start]
      | false =>
          rw [List.filter_cons_of_neg (by simp [taken]), List.foldl_cons, List.foldl_cons]
          refine ih later ?_
          rw [compare_double_add, same v List.mem_cons_self taken, Nat.compare_eq_eq.mpr rfl, start]
          cases compare x' y' <;> rfl

/-- The list holds its variables in their order. -/
def IsOrdered (vs : List Variable) : Prop :=
  Variable.all.filter (fun v => decide (v ∈ vs)) = vs

variable {vs : List Variable}

theorem IsOrdered.nodup (ordered : IsOrdered vs) : vs.Nodup := by
  rw [← ordered]
  refine (Variable.pairwise_all.filter _).imp fun {v w} before same => ?_
  exact absurd (same ▸ before) (lt_irrefl _)

theorem IsOrdered.length_le (ordered : IsOrdered vs) : vs.length ≤ 64 := by
  rw [← ordered]
  exact (List.length_filter_le _ _).trans (Variable.length_all.le.trans (by decide))

theorem isOrdered_toList (s : VarSet) : IsOrdered s.toList := by
  rw [IsOrdered]
  simp only [VarSet.mem_toList, Bool.decide_eq_true]
  rfl

theorem foldl_toNat_mono {s t : State} (below : ∀ v, s.isActive v = true → t.isActive v = true)
    (vs : List Variable) {x y : Nat} (start : x ≤ y) :
    vs.foldl (fun index v => 2 * index + (s.isActive v).toNat) x ≤
      vs.foldl (fun index v => 2 * index + (t.isActive v).toNat) y := by
  induction vs generalizing x y with
  | nil => exact start
  | cons v rest ih =>
      have digit : (s.isActive v).toNat ≤ (t.isActive v).toNat := by
        cases active : s.isActive v with
        | false => exact Nat.zero_le _
        | true => rw [below v active]
      exact ih (Nat.add_le_add (Nat.mul_le_mul_left 2 start) digit)

/-- Making variables true does not lower the row. -/
theorem toIndex_mono {s t : State} (short : vs.length ≤ 64)
    (below : ∀ v, s.isActive v = true → t.isActive v = true) : s.toIndex vs ≤ t.toIndex vs := by
  rw [toIndex_eq_foldl s short, toIndex_eq_foldl t short]
  exact foldl_toNat_mono below vs le_rfl

theorem toIndex_congr {s t : State} (same : ∀ v ∈ vs, s.isActive v = t.isActive v) :
    s.toIndex vs = t.toIndex vs := by
  rw [toIndex, toIndex]
  exact congrArg (· % UInt64.size)
    (List.foldl_ext _ _ _ fun index v listed => by rw [same v listed])

/-- Over the listed variables rows are in the same order as over all variables. -/
theorem compare_toIndex (ordered : IsOrdered vs) {s t : State}
    (same : ∀ v, v ∉ vs → s.isActive v = t.isActive v) :
    compare (s.toIndex vs) (t.toIndex vs) =
      compare (s.toIndex Variable.all) (t.toIndex Variable.all) := by
  have short : Variable.all.length ≤ 64 := Variable.length_all.le.trans (by decide)
  have whole := compare_foldl_filter s t (fun v => decide (v ∈ vs)) Variable.all
    (fun v _ outside => same v (of_decide_eq_false outside)) (rfl : compare 0 0 = compare 0 0)
  rw [ordered] at whole
  rw [toIndex_eq_foldl s ordered.length_le, toIndex_eq_foldl t ordered.length_le,
    toIndex_eq_foldl s short, toIndex_eq_foldl t short]
  exact whole

/-- The values of the listed variables decide the value of the function. -/
def DependsOnly (f : State → Bool) (vs : List Variable) : Prop :=
  ∀ s t : State, (∀ v ∈ vs, s.isActive v = t.isActive v) → f s = f t

/-- The values of one state on the listed variables and those of another one elsewhere. -/
def mix (vs : List Variable) (s t : State) : State :=
  ⟨(s.active.inter (VarSet.ofList vs)).union (t.active.diff (VarSet.ofList vs))⟩

theorem isActive_mix (vs : List Variable) (s t : State) (v : Variable) :
    (mix vs s t).isActive v = if v ∈ vs then s.isActive v else t.isActive v := by
  change ((s.active.inter (VarSet.ofList vs)).union
    (t.active.diff (VarSet.ofList vs))).contains v = _
  rw [VarSet.contains_union, VarSet.contains_inter, VarSet.contains_diff, VarSet.contains_ofList]
  by_cases listed : v ∈ vs
  · simp [listed, isActive]
  · simp [listed, isActive]

/-- The number of rows in whose states a property holds. -/
def count (vs : List Variable) (p : State → Bool) : Nat :=
  (List.range (2 ^ vs.length)).countP fun row => p (ofIndex row vs)

/-- The state of a row has to do with the bits of the listed variables only. -/
theorem ofIndex_congr {row other : Nat}
    (same : ∀ bit < vs.length, row.testBit bit = other.testBit bit) :
    ofIndex row vs = ofIndex other vs := by
  induction vs with
  | nil => rfl
  | cons v rest ih =>
      rw [ofIndex, ofIndex, same rest.length (Nat.lt_succ_self _),
        ih fun bit low => same bit (Nat.lt_succ_of_lt low)]

theorem activate_comm (s : State) (v w : Variable) :
    (s.activate v).activate w = (s.activate w).activate v :=
  ext_isActive fun x => by
    simp only [isActive_activate]
    rw [Bool.or_right_comm]

theorem count_cons (v : Variable) (rest : List Variable) (p : State → Bool) :
    count (v :: rest) p = count rest p + count rest fun s : State => p (s.activate v) := by
  have halves : List.range (2 ^ (v :: rest).length) =
      List.range (2 ^ rest.length) ++ (List.range (2 ^ rest.length)).map (2 ^ rest.length + ·) := by
    rw [← List.range_add, List.length_cons, pow_succ, Nat.mul_two]
  rw [count, halves, List.countP_append, List.countP_map]
  congr 1
  · refine List.countP_congr fun row member => ?_
    have low : row.testBit rest.length = false :=
      Nat.testBit_lt_two_pow (List.mem_range.mp member)
    simp only [ofIndex, low, Bool.false_eq_true, if_false]
  · refine List.countP_congr fun row member => ?_
    have low := List.mem_range.mp member
    have high : (2 ^ rest.length + row).testBit rest.length = true := by
      rw [Nat.testBit_two_pow_add_eq, Nat.testBit_lt_two_pow low, Bool.not_false]
    have same : ofIndex (2 ^ rest.length + row) rest = ofIndex row rest :=
      ofIndex_congr fun bit below => Nat.testBit_two_pow_add_gt below row
    simp only [Function.comp_apply, ofIndex, high, if_true, same]

/-- Each variable that the property ignores doubles the number of rows. -/
theorem count_filter (vs : List Variable) {p : State → Bool} (listed : Variable → Bool)
    (ignores : ∀ v ∈ vs, listed v = false → ∀ s, p (s.activate v) = p s) :
    count vs p = 2 ^ vs.countP (fun v => !listed v) * count (vs.filter listed) p := by
  induction vs generalizing p with
  | nil => simp
  | cons v rest ih =>
      have later := fun w member => ignores w (List.mem_cons_of_mem v member)
      have above : ∀ w ∈ rest, listed w = false →
          ∀ s : State, p ((s.activate w).activate v) = p (s.activate v) := by
        intro w member outside s
        rw [activate_comm, later w member outside]
      rw [count_cons, ih later, ih above]
      cases taken : listed v with
      | true => simp [taken, count_cons, Nat.mul_add]
      | false =>
          have same : (fun s : State => p (s.activate v)) = p :=
            funext (ignores v List.mem_cons_self taken)
          rw [same, List.filter_cons_of_neg (by simp [taken]), List.countP_cons]
          simp [taken, pow_succ]
          ring

/-- Over the listed variables a property has the same share of the rows as over all variables. -/
theorem exists_count_eq (ordered : IsOrdered vs) :
    ∃ k, 0 < k ∧ ∀ p : State → Bool, DependsOnly p vs →
      count Variable.all p = k * count vs p := by
  refine ⟨2 ^ Variable.all.countP fun v => !decide (v ∈ vs), Nat.two_pow_pos _,
    fun p depends => ?_⟩
  have whole := count_filter Variable.all (p := p) (fun v => decide (v ∈ vs))
    fun v _ outside s => depends _ _ fun w member => by
      have other : v ≠ w := fun same => of_decide_eq_false outside (same ▸ member)
      rw [isActive_activate, decide_eq_false other, Bool.or_false]
  rwa [ordered] at whole

end SwitchingLogic.State
