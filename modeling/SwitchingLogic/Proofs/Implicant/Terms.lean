import SwitchingLogic.Proofs.Implicant.Products
import SwitchingLogic.Proofs.Term.Prime

/-!
# Terms of cubes

Over a list of variables a cube says the same as its term: the term holds in the states of the rows
covered, its literals are the fixed positions, and the masks are the rows of the variables that it
fixes, all of them or those fixed to true.  Terms do not mention the width, so that they compare
cubes over different lists.
-/

namespace SwitchingLogic

namespace Implicant

/-- The cube stands over the list of variables. -/
structure Over (vs : List Variable) (a : Implicant) : Prop where
  wellFormed : a.WellFormed
  width_eq : a.width = vs.length

variable {a b : Implicant} {vs : List Variable}

theorem Over.fits (stands : a.Over vs) : vs.length ≤ maxWidth :=
  stands.width_eq ▸ stands.wellFormed.width_le

theorem Over.short (stands : a.Over vs) : vs.length ≤ 64 :=
  stands.fits.trans (by decide)

theorem IsImplicant.toOver {rows : List Nat} (implicant : IsImplicant rows vs.length a) :
    a.Over vs :=
  ⟨implicant.wellFormed, implicant.width_eq⟩

theorem over_minterm (fits : vs.length ≤ maxWidth) (row : Nat) :
    (minterm row vs.length).Over vs :=
  ⟨wellFormed_minterm row fits, rfl⟩

theorem Over.expand (stands : a.Over vs) (position : Nat) : (a.expand position).Over vs :=
  ⟨stands.wellFormed.expand position, stands.width_eq⟩

theorem Over.containsState_toTerm (stands : a.Over vs) (nodup : vs.Nodup) (s : State) :
    (a.toTerm vs).containsState s = a.covers (s.toIndex vs) := by
  rw [← eval_toProduct stands.wellFormed nodup stands.width_eq.symm, toProduct, Term.eval_toProduct]

theorem Over.containsState_congr (stands : a.Over vs) (nodup : vs.Nodup) {s t : State}
    (same : ∀ v ∈ vs, s.isActive v = t.isActive v) :
    (a.toTerm vs).containsState s = (a.toTerm vs).containsState t := by
  rw [stands.containsState_toTerm nodup, stands.containsState_toTerm nodup,
    State.toIndex_congr same]

theorem any_containsState_map {cubes : List Implicant} (stands : ∀ a ∈ cubes, a.Over vs)
    (nodup : vs.Nodup) (s : State) :
    (cubes.map (·.toTerm vs)).any (·.containsState s) = cubes.any (·.covers (s.toIndex vs)) := by
  rw [List.any_map, Bool.eq_iff_iff, List.any_eq_true, List.any_eq_true]
  refine exists_congr fun a => and_congr_right fun member => ?_
  rw [Function.comp_apply, (stands a member).containsState_toTerm nodup]

/-- A variable outside the list is free, and another one is fixed by its position. -/
theorem Over.fixes_toTerm_iff (stands : a.Over vs) (nodup : vs.Nodup) {position : Nat}
    (inside : position < vs.length) (value : Bool) :
    (a.toTerm vs).fixes vs[position] value = true ↔
      a.isFixed position = true ∧ a.bit position = value := by
  rw [fixes_toTerm nodup stands.width_eq.symm]
  constructor
  · rintro ⟨place, found, both⟩
    obtain ⟨below, same⟩ := List.getElem?_eq_some_iff.mp found
    rwa [nodup.getElem_inj_iff.mp same] at both
  · intro both
    exact ⟨position, List.getElem?_eq_getElem inside, both⟩

theorem Over.mem_of_fixes_toTerm (stands : a.Over vs) (nodup : vs.Nodup) {v : Variable}
    {value : Bool} (fixed : (a.toTerm vs).fixes v value = true) : v ∈ vs := by
  obtain ⟨place, found, _⟩ := (fixes_toTerm nodup stands.width_eq.symm v value).mp fixed
  exact List.mem_of_getElem? found

/-- Freeing a position frees its variable. -/
theorem Over.toTerm_expand (stands : a.Over vs) (nodup : vs.Nodup) {position : Nat}
    (inside : position < vs.length) :
    (a.expand position).toTerm vs = (a.toTerm vs).drop vs[position] := by
  refine Term.ext_fixes fun v value => ?_
  rw [Term.fixes_drop, Bool.eq_iff_iff, Bool.and_eq_true, Bool.not_eq_true',
    decide_eq_false_iff_not]
  by_cases listed : v ∈ vs
  · obtain ⟨other, below, rfl⟩ := List.getElem_of_mem listed
    rw [(stands.expand position).fixes_toTerm_iff nodup below, stands.fixes_toTerm_iff nodup below,
      nodup.getElem_inj_iff]
    by_cases same : position = other
    · subst same
      refine iff_of_false (fun both => ?_) fun both => both.2 rfl
      rw [isFixed, care_expand] at both
      simp [Implicant.expand] at both
    · have apart : ¬ a.width - 1 - position = a.width - 1 - other := by
        have width := stands.width_eq
        omega
      have fixed : (a.expand position).isFixed other = a.isFixed other := by
        rw [isFixed, care_expand]
        exact (congrArg _ (congrArg _ (decide_eq_false apart))).trans (Bool.and_true _)
      have bit : (a.expand position).bit other = a.bit other := by
        rw [bit, value_expand]
        exact (congrArg _ (congrArg _ (decide_eq_false apart))).trans (Bool.and_true _)
      rw [fixed, bit, and_iff_left same]
  · exact iff_of_false
      (fun fixed => listed ((stands.expand position).mem_of_fixes_toTerm nodup fixed))
      fun both => listed (stands.mem_of_fixes_toTerm nodup both.1)

theorem fixes_toTerm_minterm (fits : vs.length ≤ maxWidth) (nodup : vs.Nodup) (s : State)
    (v : Variable) (value : Bool) :
    ((minterm (s.toIndex vs) vs.length).toTerm vs).fixes v value = true ↔
      v ∈ vs ∧ s.isActive v = value := by
  have stands := over_minterm fits (s.toIndex vs)
  by_cases listed : v ∈ vs
  · obtain ⟨position, inside, rfl⟩ := List.getElem_of_mem listed
    have low : vs.length - 1 - position < vs.length := by omega
    have fixed : (minterm (s.toIndex vs) vs.length).isFixed position = true :=
      (getLsbD_fullMask fits _).trans (decide_eq_true low)
    have bit : (minterm (s.toIndex vs) vs.length).bit position = s.isActive vs[position] :=
      (value_minterm _ fits low).trans (State.testBit_toIndex s (fits.trans (by decide)) inside)
    rw [stands.fixes_toTerm_iff nodup inside, bit, and_iff_right fixed, and_iff_right listed]
  · exact iff_of_false (fun fixed => listed (stands.mem_of_fixes_toTerm nodup fixed))
      fun both => listed both.1

/-- A mask below the width is the row of the state that is true where the mask is set. -/
theorem toNat_eq_toIndex {mask : BitVec 32} {s : State} (short : vs.length ≤ 64)
    (low : ∀ i, mask.getLsbD i = true → i < vs.length)
    (same : ∀ (position : Nat) (inside : position < vs.length),
      mask.getLsbD (vs.length - 1 - position) = s.isActive vs[position]) :
    mask.toNat = s.toIndex vs := by
  refine Nat.eq_of_testBit_eq fun i => ?_
  rw [BitVec.testBit_toNat]
  by_cases inside : i < vs.length
  · have place : vs.length - 1 - i < vs.length := by omega
    have mirrored : vs.length - 1 - (vs.length - 1 - i) = i := by omega
    have bit := same _ place
    rw [← State.testBit_toIndex s short place, mirrored] at bit
    exact bit
  · have large : 2 ^ vs.length ≤ 2 ^ i := Nat.pow_le_pow_right Nat.two_pos (by omega)
    rw [Nat.testBit_lt_two_pow ((s.toIndex_lt short).trans_le large), ← Bool.not_eq_true]
    exact fun set => inside (low i set)

theorem Over.value_toNat (stands : a.Over vs) (nodup : vs.Nodup) :
    a.value.toNat = State.toIndex ⟨(a.toTerm vs).positive⟩ vs := by
  refine toNat_eq_toIndex stands.short
    (fun i set => stands.width_eq ▸
      stands.wellFormed.lt_width i (stands.wellFormed.care_of_value i set))
    fun position inside => ?_
  rw [Bool.eq_iff_iff, ← stands.width_eq]
  refine Iff.trans ?_ (stands.fixes_toTerm_iff nodup inside true).symm
  exact ⟨fun set => ⟨stands.wellFormed.care_of_value _ set, set⟩, fun both => both.2⟩

theorem Over.care_toNat (stands : a.Over vs) (nodup : vs.Nodup) :
    a.care.toNat = State.toIndex ⟨(a.toTerm vs).vars⟩ vs := by
  refine toNat_eq_toIndex stands.short
    (fun i set => stands.width_eq ▸ stands.wellFormed.lt_width i set) fun position inside => ?_
  rw [Bool.eq_iff_iff, ← stands.width_eq]
  refine Iff.trans ?_ (Term.contains_vars_iff _ _).symm
  simp only [stands.fixes_toTerm_iff nodup inside]
  exact ⟨fun set => ⟨_, set, rfl⟩, fun ⟨_, set, _⟩ => set⟩

/-- Cubes with the same term are equal. -/
theorem Over.eq_of_toTerm_eq (stands : a.Over vs) (stands' : b.Over vs) (nodup : vs.Nodup)
    (same : a.toTerm vs = b.toTerm vs) : a = b := by
  have value : a.value = b.value := BitVec.eq_of_toNat_eq (by
    rw [stands.value_toNat nodup, stands'.value_toNat nodup, same])
  have care : a.care = b.care := BitVec.eq_of_toNat_eq (by
    rw [stands.care_toNat nodup, stands'.care_toNat nodup, same])
  cases a
  cases b
  cases stands.width_eq.trans stands'.width_eq.symm
  cases value
  cases care
  rfl

theorem countP_testBit_toIndex (s : State) (short : vs.length ≤ 64) :
    (List.range vs.length).countP (s.toIndex vs).testBit = vs.countP s.isActive := by
  induction vs with
  | nil => rfl
  | cons v rest ih =>
      have shortRest : rest.length ≤ 64 := (Nat.le_succ _).trans short
      have last := State.testBit_toIndex s short (Nat.succ_pos rest.length)
      have others : (List.range rest.length).countP (s.toIndex (v :: rest)).testBit =
          (List.range rest.length).countP (s.toIndex rest).testBit := by
        refine List.countP_congr fun i member => ?_
        have low := List.mem_range.mp member
        have place : rest.length - 1 - i < rest.length := by omega
        have whole := State.testBit_toIndex s short (Nat.succ_lt_succ place)
        have part := State.testBit_toIndex s shortRest place
        rw [List.getElem_cons_succ, ← part, List.length_cons] at whole
        have mirrored : rest.length - 1 - (rest.length - 1 - i) = i := by omega
        have mirrored' : rest.length + 1 - 1 - (rest.length - 1 - i + 1) = i := by omega
        rw [mirrored, mirrored'] at whole
        rw [whole]
      rw [List.length_cons, List.range_succ, List.countP_append, others, ih shortRest,
        List.countP_singleton, List.countP_cons]
      rw [List.length_cons, Nat.add_sub_cancel, Nat.sub_zero, List.getElem_cons_zero] at last
      rw [last]

theorem size_union {s t : VarSet} (apart : s.isDisjoint t = true) :
    (s.union t).size = s.size + t.size := by
  rw [VarSet.isDisjoint_iff] at apart
  simp only [VarSet.size, VarSet.toList, ← List.countP_eq_length_filter]
  induction Variable.all with
  | nil => rfl
  | cons v rest ih =>
      rw [List.countP_cons, List.countP_cons, List.countP_cons, ih, VarSet.contains_union]
      cases first : s.contains v with
      | true =>
          rw [apart v first]
          simp
          omega
      | false =>
          simp
          omega

theorem Over.literalCount_toTerm (stands : a.Over vs) (ordered : State.IsOrdered vs) :
    (a.toTerm vs).literalCount = a.literalCount := by
  have apart := a.hasConflict_toTerm vs
  rw [Term.hasConflict, Bool.not_eq_false'] at apart
  have listed (v : Variable) : (a.toTerm vs).vars.contains v = true → v ∈ vs := by
    rw [Term.contains_vars_iff]
    rintro ⟨value, fixed⟩
    exact stands.mem_of_fixes_toTerm ordered.nodup fixed
  calc (a.toTerm vs).literalCount
      = Variable.all.countP (a.toTerm vs).vars.contains := by
        rw [Term.literalCount, ← size_union apart, VarSet.size, VarSet.toList,
          List.countP_eq_length_filter, Term.vars]
    _ = vs.countP (a.toTerm vs).vars.contains := by
        rw [← ordered, List.countP_filter, ordered]
        refine List.countP_congr fun v _ => ?_
        rw [Bool.and_eq_true, decide_eq_true_eq]
        exact ⟨fun fixed => ⟨fixed, listed v fixed⟩, fun both => both.1⟩
    _ = (List.range vs.length).countP a.care.toNat.testBit := by
        rw [stands.care_toNat ordered.nodup, countP_testBit_toIndex _ stands.short]
        rfl
    _ = a.literalCount := by
        rw [literalCount_eq stands.wellFormed, stands.width_eq]
        exact List.countP_congr fun i _ => by rw [BitVec.testBit_toNat]

/-- The cube of a term over a list of variables; what the term says of others is dropped. -/
def ofTerm (t : Term) (vs : List Variable) : Implicant :=
  ⟨BitVec.ofNat 32 (State.toIndex ⟨t.positive⟩ vs), BitVec.ofNat 32 (State.toIndex ⟨t.vars⟩ vs),
    vs.length⟩

theorem getLsbD_ofNat_toIndex (fits : vs.length ≤ maxWidth) (s : State) {position : Nat}
    (inside : position < vs.length) :
    (BitVec.ofNat 32 (s.toIndex vs)).getLsbD (vs.length - 1 - position) =
      s.isActive vs[position] := by
  have low : vs.length - 1 - position < 32 := lt_of_lt_of_le (by omega) fits
  rw [BitVec.getLsbD_ofNat, decide_eq_true low, Bool.true_and,
    State.testBit_toIndex s (fits.trans (by decide)) inside]

theorem over_ofTerm (fits : vs.length ≤ maxWidth) (t : Term) : (ofTerm t vs).Over vs := by
  have short : vs.length ≤ 64 := fits.trans (by decide)
  have low (s : State) (i : Nat) (set : (BitVec.ofNat 32 (s.toIndex vs)).getLsbD i = true) :
      i < vs.length := by
    rw [BitVec.getLsbD_ofNat, Bool.and_eq_true] at set
    by_contra high
    have large : 2 ^ vs.length ≤ 2 ^ i := Nat.pow_le_pow_right Nat.two_pos (by omega)
    rw [Nat.testBit_lt_two_pow ((s.toIndex_lt short).trans_le large)] at set
    exact Bool.noConfusion set.2
  refine ⟨⟨fun i set => ?_, fun i set => low _ i set, fits⟩, rfl⟩
  have inside : i < vs.length := low _ i set
  have place : vs.length - 1 - i < vs.length := by omega
  have mirrored : vs.length - 1 - (vs.length - 1 - i) = i := by omega
  have value := getLsbD_ofNat_toIndex fits ⟨t.positive⟩ place
  have care := getLsbD_ofNat_toIndex fits ⟨t.vars⟩ place
  rw [mirrored] at value care
  exact care.trans ((Term.contains_vars_iff t _).mpr ⟨true, value.symm.trans set⟩)

/-- The cube of a term says what the term says of the listed variables. -/
theorem toTerm_ofTerm (fits : vs.length ≤ maxWidth) (nodup : vs.Nodup) {t : Term}
    (consistent : t.hasConflict = false) : (ofTerm t vs).toTerm vs = t.among vs := by
  have stands := over_ofTerm fits t
  refine Term.ext_fixes fun v value => ?_
  rw [Term.fixes_among, Bool.eq_iff_iff, Bool.and_eq_true, decide_eq_true_eq]
  by_cases listed : v ∈ vs
  · obtain ⟨position, inside, rfl⟩ := List.getElem_of_mem listed
    rw [stands.fixes_toTerm_iff nodup inside, and_iff_left listed, isFixed, bit, stands.width_eq]
    have fixed := getLsbD_ofNat_toIndex fits ⟨t.vars⟩ inside
    have positive := getLsbD_ofNat_toIndex fits ⟨t.positive⟩ inside
    rw [ofTerm, fixed, positive]
    change t.vars.contains vs[position] = true ∧ t.fixes vs[position] true = value ↔ _
    rw [Term.contains_vars_iff, Bool.exists_bool]
    cases value with
    | true => exact ⟨fun both => both.2, fun set => ⟨Or.inr set, set⟩⟩
    | false =>
        constructor
        · rintro ⟨negative | positive, unset⟩
          · exact negative
          · exact Bool.noConfusion (unset.symm.trans positive)
        · intro negative
          exact ⟨Or.inl negative, Bool.eq_false_iff.mpr fun positive =>
            Bool.noConfusion (Term.eq_of_fixes consistent negative positive)⟩
  · exact iff_of_false (fun fixed => listed (stands.mem_of_fixes_toTerm nodup fixed))
      fun both => listed both.2

end Implicant

end SwitchingLogic
