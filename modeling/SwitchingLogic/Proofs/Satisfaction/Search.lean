import SwitchingLogic.Proofs.Satisfaction.Partial
import SwitchingLogic.Proofs.Term.Values
import SwitchingLogic.Satisfaction.Search

/-!
# Complete searches

There is one list of all solutions from the last row to the first.  The search that fixes one
variable after the other finds the solutions in this order, whatever branches it leaves early, and
the search by rows finds them in the opposite order; the first solution is all that either of them
finds if it has to stop there.
-/

namespace SwitchingLogic

namespace Term

theorem lookup_free (v : Variable) : free.lookup v = none := by
  simp [lookup, free]

theorem lookup_set (t : Term) (v w : Variable) (value : Bool) :
    (t.set v value).lookup w = if v = w then some value else t.lookup w := by
  by_cases same : v = w
  · cases value <;> simp [lookup, set, same]
  · cases value <;> simp [lookup, set, same]

theorem lookup_eq_some {t : Term} {v : Variable} (fixed : t.lookup v ≠ none) :
    t.lookup v = some (t.positive.contains v) := by
  unfold lookup at *
  cases positive : t.positive.contains v with
  | true => rfl
  | false =>
      rw [positive] at fixed
      cases negative : t.negative.contains v with
      | true => rfl
      | false =>
          rw [negative] at fixed
          exact (fixed rfl).elim

/-- Fixing one more variable adds one condition. -/
theorem extends_lookup_set {t : Term} {v : Variable} (fresh : t.lookup v = none) (value : Bool)
    (s : State) :
    Extends (t.set v value).lookup s.known ↔ Extends t.lookup s.known ∧ s.isActive v = value := by
  constructor
  · intro agrees
    refine ⟨fun w other found => agrees w other ?_, ?_⟩
    · rw [lookup_set, if_neg, found]
      rintro rfl
      rw [fresh] at found
      cases found
    · have here := agrees v value (by rw [lookup_set, if_pos rfl])
      exact Option.some.inj here
  · rintro ⟨agrees, rfl⟩ w other found
    rw [lookup_set] at found
    split at found
    · rename_i same
      rw [← same]
      exact found
    · exact agrees w other found

end Term

namespace Problem

/-- The list holds the solutions over the variables of the problem, from the last row to the
first. -/
structure Enumerates (p : Problem) (all : List State) : Prop where
  mem_iff : ∀ s, s ∈ all ↔ (∀ v, s.isActive v = true → v ∈ p.vars) ∧
    p.expr.eval s = true ∧ ∀ c ∈ p.constraints, c.eval s = true
  decreasing : all.Pairwise fun s t => t.toIndex p.vars < s.toIndex p.vars

theorem Enumerates.unique {p : Problem} {all all' : List State} (first : p.Enumerates all)
    (second : p.Enumerates all') : all = all' := by
  have irreflexive : Std.Irrefl fun s t : State => t.toIndex p.vars < s.toIndex p.vars :=
    ⟨fun s => Nat.lt_irrefl _⟩
  have antisymmetric : Std.Antisymm fun s t : State => t.toIndex p.vars < s.toIndex p.vars :=
    ⟨fun s t above below => (Nat.lt_asymm above below).elim⟩
  apply List.Pairwise.eq_of_mem_iff first.decreasing second.decreasing
  intro s
  rw [first.mem_iff, second.mem_iff]

theorem length_vars_le (p : Problem) : p.vars.length ≤ 64 :=
  (VarSet.length_toList_le _).trans (by decide)

theorem nodup_vars (p : Problem) : p.vars.Nodup :=
  VarSet.nodup_toList _

/-! ## One variable after the other -/

/-- The term fixes the variables in front of the open ones, and no others. -/
structure Reached (p : Problem) (front rest : List Variable) (t : Term) : Prop where
  vars_eq : p.vars = front ++ rest
  lookup_eq_none_iff : ∀ v, t.lookup v = none ↔ v ∉ front

theorem reached_free (p : Problem) : p.Reached [] p.vars .free := by
  constructor
  · rfl
  · intro v
    exact iff_of_true (Term.lookup_free v) List.not_mem_nil

namespace Reached

variable {p : Problem} {front rest : List Variable} {t : Term} {v : Variable}

theorem lookup_head (reached : p.Reached front (v :: rest) t) : t.lookup v = none := by
  rw [reached.lookup_eq_none_iff]
  intro before
  have nodup := p.nodup_vars
  rw [reached.vars_eq, List.nodup_append] at nodup
  exact nodup.2.2 v before v List.mem_cons_self rfl

theorem set (reached : p.Reached front (v :: rest) t) (value : Bool) :
    p.Reached (front ++ [v]) rest (t.set v value) := by
  constructor
  · rw [reached.vars_eq, List.append_assoc, List.singleton_append]
  · intro w
    rw [Term.lookup_set, List.mem_append, List.mem_singleton, not_or,
      ← reached.lookup_eq_none_iff]
    by_cases same : v = w
    · simp [same]
    · simp [same, Ne.symm same]

theorem lookup_of_mem (reached : p.Reached front [] t) (listed : v ∈ p.vars) :
    t.lookup v = some (t.positive.contains v) := by
  apply Term.lookup_eq_some
  rw [Ne, reached.lookup_eq_none_iff, not_not]
  rwa [reached.vars_eq, List.append_nil] at listed

theorem lookup_of_not_mem (reached : p.Reached front [] t) (other : v ∉ p.vars) :
    t.lookup v = none := by
  rw [reached.lookup_eq_none_iff]
  rwa [reached.vars_eq, List.append_nil] at other

/-- With no variable left open, the state of the term is the only one over the variables that
agrees with the term. -/
theorem eq_iff (reached : p.Reached front [] t) (s : State) :
    s = ⟨t.positive⟩ ↔ (∀ v, s.isActive v = true → v ∈ p.vars) ∧ Extends t.lookup s.known := by
  have positive {v : Variable} (active : t.positive.contains v = true) : v ∈ p.vars := by
    by_contra other
    have unknown := reached.lookup_of_not_mem other
    rw [Term.lookup, if_pos active] at unknown
    cases unknown
  constructor
  · rintro rfl
    refine ⟨fun v active => positive active, fun v value found => ?_⟩
    by_cases listed : v ∈ p.vars
    · exact (reached.lookup_of_mem listed).symm.trans found
    · rw [reached.lookup_of_not_mem listed] at found
      cases found
  · rintro ⟨inside, agrees⟩
    refine State.ext_isActive fun v => ?_
    by_cases listed : v ∈ p.vars
    · exact Option.some.inj (agrees v _ (reached.lookup_of_mem listed))
    · have inactive := Bool.eq_false_iff.mpr fun active => listed (inside v active)
      have absent := Bool.eq_false_iff.mpr fun active => listed (positive active)
      exact inactive.trans absent.symm

end Reached

theorem stopped_branch_all (p : Problem) (rest : List Variable) (t : Term) :
    (p.branch true rest t).stopped = false := by
  induction rest generalizing t with
  | nil =>
      rw [branch]
      split <;> rfl
  | cons v rest ih =>
      rw [branch]
      split
      · rfl
      · rw [Search.charge, Search.andThen, ih]
        exact ih _

theorem solutions_branch_all_cons {p : Problem} {v : Variable} {rest : List Variable} {t : Term}
    (live : p.status t.lookup ≠ some false) :
    (p.branch true (v :: rest) t).solutions =
      (p.branch true rest (t.set v true)).solutions ++
        (p.branch true rest (t.set v false)).solutions := by
  rw [branch, if_neg live, Search.charge, Search.andThen, stopped_branch_all]
  rfl

/-- Below a term the search finds the solutions that agree with it, and a branch that it leaves
has none. -/
theorem mem_branch_all {p : Problem} {front rest : List Variable} {t : Term}
    (reached : p.Reached front rest t) (s : State) :
    s ∈ (p.branch true rest t).solutions ↔ p.isSolution s = true ∧
      (∀ v, s.isActive v = true → v ∈ p.vars) ∧ Extends t.lookup s.known := by
  induction rest generalizing front t with
  | nil =>
      rw [← reached.eq_iff, branch]
      have decided : p.status t.lookup = some (p.isSolution ⟨t.positive⟩) :=
        status_eq_isSolution fun v listed => reached.lookup_of_mem listed
      have solved : p.status t.lookup = some true ↔ p.isSolution ⟨t.positive⟩ = true := by
        rw [decided, Option.some_inj]
      split
      · rename_i found
        rw [List.mem_singleton]
        constructor
        · rintro rfl
          exact ⟨solved.mp found, rfl⟩
        · exact And.right
      · rename_i failed
        refine iff_of_false List.not_mem_nil ?_
        rintro ⟨solution, rfl⟩
        exact failed (solved.mpr solution)
  | cons v rest ih =>
      by_cases failed : p.status t.lookup = some false
      · rw [branch, if_pos failed]
        refine iff_of_false List.not_mem_nil ?_
        rintro ⟨solution, _, agrees⟩
        exact Bool.noConfusion ((isSolution_of_status failed agrees).symm.trans solution)
      · rw [solutions_branch_all_cons failed, List.mem_append, ih (reached.set true),
          ih (reached.set false), Term.extends_lookup_set reached.lookup_head,
          Term.extends_lookup_set reached.lookup_head]
        cases s.isActive v <;> simp

theorem pairwise_branch_all {p : Problem} {front rest : List Variable} {t : Term}
    (reached : p.Reached front rest t) :
    (p.branch true rest t).solutions.Pairwise
      fun s u => u.toIndex p.vars < s.toIndex p.vars := by
  induction rest generalizing front t with
  | nil =>
      rw [branch]
      split
      · exact List.pairwise_singleton _ _
      · exact List.Pairwise.nil
  | cons v rest ih =>
      by_cases failed : p.status t.lookup = some false
      · rw [branch, if_pos failed]
        exact List.Pairwise.nil
      · rw [solutions_branch_all_cons failed, List.pairwise_append]
        refine ⟨ih (reached.set true), ih (reached.set false), fun s first u second => ?_⟩
        have above := ((mem_branch_all (reached.set true) s).mp first).2.2
        have below := ((mem_branch_all (reached.set false) u).mp second).2.2
        rw [Term.extends_lookup_set reached.lookup_head] at above below
        have short := p.length_vars_le
        rw [reached.vars_eq] at short ⊢
        refine State.toIndex_append_cons_lt short (fun w before => ?_) below.2 above.2
        have fixed : t.lookup w ≠ none := fun open' =>
          (reached.lookup_eq_none_iff w).mp open' before
        obtain ⟨value, found⟩ := Option.ne_none_iff_exists'.mp fixed
        have left := above.1 w value found
        have right := below.1 w value found
        exact Option.some.inj (right.trans left.symm)

/-- Stopping at the first solution finds the first one. -/
theorem branch_first (p : Problem) (rest : List Variable) (t : Term) :
    (p.branch false rest t).solutions = (p.branch true rest t).solutions.take 1 ∧
      (p.branch false rest t).stopped = !(p.branch true rest t).solutions.isEmpty := by
  induction rest generalizing t with
  | nil =>
      rw [branch, branch]
      split
      · exact ⟨rfl, rfl⟩
      · exact ⟨rfl, rfl⟩
  | cons v rest ih =>
      by_cases failed : p.status t.lookup = some false
      · rw [branch, branch, if_pos failed, if_pos failed]
        exact ⟨rfl, rfl⟩
      · obtain ⟨front, stopped⟩ := ih (t.set v true)
        obtain ⟨back, over'⟩ := ih (t.set v false)
        rw [solutions_branch_all_cons failed, branch, if_neg failed, Search.charge,
          Search.andThen, stopped]
        cases found : (p.branch true rest (t.set v true)).solutions with
        | nil =>
            rw [found] at front
            simp [front, back, over']
        | cons s others =>
            rw [found] at front stopped
            exact ⟨front, stopped⟩

theorem enumerates_branchSearch (p : Problem) :
    p.Enumerates (p.branchSearch true).solutions := by
  constructor
  · intro s
    rw [branchSearch, mem_branch_all p.reached_free, isSolution_iff]
    have agrees : Extends Term.free.lookup s.known := by
      intro v value found
      rw [Term.lookup_free] at found
      cases found
    rw [and_iff_left agrees]
    exact and_comm
  · exact pairwise_branch_all p.reached_free

theorem solutions_branchSearch_first (p : Problem) :
    (p.branchSearch false).solutions = (p.branchSearch true).solutions.take 1 :=
  (p.branch_first p.vars .free).1

/-! ## One row after the other -/

theorem solutions_rowSearch_all (p : Problem) :
    (p.rowSearch true).solutions =
      ((List.range (2 ^ p.vars.length)).map fun row => State.ofIndex row p.vars).filter
        p.isSolution := by
  rw [rowSearch, if_pos rfl, Nat.one_shiftLeft]

theorem enumerates_rowSearch (p : Problem) :
    p.Enumerates (p.rowSearch true).solutions.reverse := by
  rw [solutions_rowSearch_all]
  constructor
  · intro s
    rw [List.mem_reverse, List.mem_filter, isSolution_iff,
      ← State.exists_ofIndex_eq_iff p.nodup_vars p.length_vars_le]
    simp only [List.mem_map, List.mem_range]
  · rw [List.pairwise_reverse]
    refine List.Pairwise.filter _ (List.pairwise_map.mpr ?_)
    refine List.pairwise_lt_range.imp_of_mem fun first second below => ?_
    rw [List.mem_range] at first second
    rwa [State.toIndex_ofIndex p.nodup_vars p.length_vars_le first,
      State.toIndex_ofIndex p.nodup_vars p.length_vars_le second]

theorem solutions_rowSearch_first (p : Problem) :
    (p.rowSearch false).solutions = (p.rowSearch true).solutions.take 1 := by
  rw [solutions_rowSearch_all, List.take_one, List.head?_filter,
    List.find?_eq_bind_findIdx?_getElem?, rowSearch, Nat.one_shiftLeft]
  simp only [Bool.false_eq_true, if_false]
  split
  · rename_i row found
    obtain ⟨inside, _⟩ := List.findIdx?_eq_some_iff_getElem.mp found
    rw [found, Option.bind_some, List.getElem?_eq_getElem inside,
      List.getElem_map, List.getElem_range]
    rfl
  · rename_i found
    rw [found]
    rfl

end Problem

end SwitchingLogic
