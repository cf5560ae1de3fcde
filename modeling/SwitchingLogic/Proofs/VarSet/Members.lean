import Mathlib.Data.List.Sort
import SwitchingLogic.VarSet

/-!
# Members of sets of variables

A set of variables is known by its members.  Each operation is described here by what it does to
membership, so that the bits behind the sets are not looked at anywhere else.
-/

namespace SwitchingLogic

namespace Variable

@[ext]
theorem ext {v w : Variable} (same : v.index = w.index) : v = w := by
  cases v
  cases w
  exact congrArg Variable.mk same

theorem mem_all (v : Variable) : v ∈ all :=
  List.mem_map.mpr ⟨v.index, List.mem_finRange _, rfl⟩

/-- The variables are listed in increasing order. -/
theorem pairwise_all : all.Pairwise fun v w => v.index < w.index := by
  rw [all, List.pairwise_map]
  exact List.pairwise_lt_finRange 52

theorem length_all : all.length = 52 := by
  rw [all, List.length_map, List.length_finRange]

end Variable

namespace VarSet

/-- Membership is the bit at the place of the variable. -/
theorem contains_mk (bits : BitVec 52) (v : Variable) :
    (VarSet.mk bits).contains v = bits.getLsbD v.index.val := rfl

/-- Sets with the same members are equal. -/
theorem ext_contains {s t : VarSet} (same : ∀ v, s.contains v = t.contains v) : s = t := by
  cases s with
  | mk left =>
      cases t with
      | mk right =>
          refine congrArg VarSet.mk (BitVec.eq_of_getLsbD_eq fun place inside => ?_)
          exact same ⟨place, inside⟩

@[simp]
theorem contains_empty (v : Variable) : empty.contains v = false := by
  rw [empty, contains_mk]
  exact BitVec.getLsbD_zero

@[simp]
theorem contains_singleton (v w : Variable) : (singleton v).contains w = decide (v = w) := by
  rw [singleton, contains_mk, BitVec.getLsbD_twoPow, decide_eq_true v.index.isLt, Bool.true_and]
  exact decide_eq_decide.mpr (by rw [Variable.ext_iff, Fin.ext_iff])

@[simp]
theorem contains_union (s t : VarSet) (v : Variable) :
    (s.union t).contains v = (s.contains v || t.contains v) :=
  BitVec.getLsbD_or

@[simp]
theorem contains_inter (s t : VarSet) (v : Variable) :
    (s.inter t).contains v = (s.contains v && t.contains v) :=
  BitVec.getLsbD_and

@[simp]
theorem contains_diff (s t : VarSet) (v : Variable) :
    (s.diff t).contains v = (s.contains v && !t.contains v) := by
  rw [diff, contains_mk, BitVec.getLsbD_and, BitVec.getLsbD_not, decide_eq_true v.index.isLt,
    Bool.true_and]
  rfl

@[simp]
theorem contains_insert (s : VarSet) (v w : Variable) :
    (s.insert v).contains w = (s.contains w || decide (v = w)) := by
  rw [insert, contains_union, contains_singleton]

@[simp]
theorem contains_erase (s : VarSet) (v w : Variable) :
    (s.erase v).contains w = (s.contains w && !decide (v = w)) := by
  rw [erase, contains_diff, contains_singleton]

theorem containsAll_iff (s t : VarSet) :
    s.containsAll t = true ↔ ∀ v, t.contains v = true → s.contains v = true := by
  have asSets : s.containsAll t = true ↔ s.inter t = t := by
    rw [containsAll, beq_iff_eq]
    exact ⟨fun same => congrArg VarSet.mk same, fun same => congrArg VarSet.bits same⟩
  rw [asSets]
  constructor
  · intro same v member
    rw [← same, contains_inter, Bool.and_eq_true] at member
    exact member.1
  · intro inside
    refine ext_contains fun v => ?_
    rw [contains_inter]
    cases member : t.contains v with
    | false => exact Bool.and_false _
    | true => rw [inside v member, Bool.and_self]

theorem containsAll_self (s : VarSet) : s.containsAll s = true :=
  (containsAll_iff s s).mpr fun _ member => member

theorem containsAll_union (s t u : VarSet) :
    s.containsAll (t.union u) = true ↔ s.containsAll t = true ∧ s.containsAll u = true := by
  simp only [containsAll_iff, contains_union, Bool.or_eq_true, or_imp, forall_and]

theorem isDisjoint_iff (s t : VarSet) :
    s.isDisjoint t = true ↔ ∀ v, s.contains v = true → t.contains v = false := by
  have asSets : s.isDisjoint t = true ↔ s.inter t = empty := by
    rw [isDisjoint, beq_iff_eq]
    exact ⟨fun same => congrArg VarSet.mk same, fun same => congrArg VarSet.bits same⟩
  rw [asSets]
  constructor
  · intro same v member
    have apart := congrArg (fun set => set.contains v) same
    simpa only [contains_inter, contains_empty, member, Bool.true_and] using apart
  · intro apart
    refine ext_contains fun v => ?_
    rw [contains_inter, contains_empty]
    cases member : s.contains v with
    | false => exact Bool.false_and _
    | true => rw [apart v member, Bool.and_false]

@[simp]
theorem mem_toList {s : VarSet} {v : Variable} : v ∈ s.toList ↔ s.contains v = true := by
  rw [toList, List.mem_filter]
  exact and_iff_right (Variable.mem_all v)

/-- The members are listed in increasing order. -/
theorem pairwise_toList (s : VarSet) : s.toList.Pairwise fun v w => v.index < w.index :=
  Variable.pairwise_all.filter _

theorem nodup_toList (s : VarSet) : s.toList.Nodup :=
  s.pairwise_toList.imp fun {_ _} before same => absurd (same ▸ before) (lt_irrefl _)

theorem length_toList_mono {s t : VarSet}
    (inside : ∀ v, s.contains v = true → t.contains v = true) :
    s.toList.length ≤ t.toList.length :=
  (List.monotone_filter_right Variable.all inside).length_le

/-- There are not more members than variables. -/
theorem length_toList_le (s : VarSet) : s.toList.length ≤ 52 :=
  Variable.length_all ▸ List.length_filter_le _ _

theorem contains_foldl_insert (vs : List Variable) (s : VarSet) (v : Variable) :
    (vs.foldl insert s).contains v = (s.contains v || decide (v ∈ vs)) := by
  induction vs generalizing s with
  | nil => simp
  | cons w rest ih =>
      rw [List.foldl_cons, ih, contains_insert, Bool.or_assoc, ← Bool.decide_or]
      simp only [List.mem_cons, eq_comm]

@[simp]
theorem contains_ofList (vs : List Variable) (v : Variable) :
    (ofList vs).contains v = decide (v ∈ vs) := by
  rw [ofList, contains_foldl_insert, contains_empty, Bool.false_or]

end VarSet

end SwitchingLogic
