import Mathlib.Tactic.Ring
import SwitchingLogic.Proofs.VarSet.Members
import SwitchingLogic.State

/-!
# States and rows

A state is known by the values that it gives to variables.  Over a list of different variables the
rows below a power of two and the choices of values correspond to each other: reading a row off a
state undoes making the state of a row, and the other way round on the listed variables.
-/

namespace SwitchingLogic.State

/-- States with the same values are equal. -/
theorem ext_isActive {s t : State} (same : ∀ v, s.isActive v = t.isActive v) : s = t := by
  cases s
  cases t
  exact congrArg State.mk (VarSet.ext_contains same)

@[simp]
theorem isActive_allFalse (v : Variable) : allFalse.isActive v = false :=
  VarSet.contains_empty v

@[simp]
theorem isActive_activate (s : State) (v w : Variable) :
    (s.activate v).isActive w = (s.isActive w || decide (v = w)) :=
  VarSet.contains_insert s.active v w

@[simp]
theorem isActive_disable (s : State) (v w : Variable) :
    (s.disable v).isActive w = (s.isActive w && !decide (v = w)) :=
  VarSet.contains_erase s.active v w

theorem isActive_set (s : State) (v w : Variable) (value : Bool) :
    (s.set v value).isActive w = if v = w then value else s.isActive w := by
  by_cases same : v = w
  · cases value <;> simp [set, same]
  · cases value <;> simp [set, same]

/-- Changing a variable back restores the state. -/
@[simp]
theorem flip_flip (s : State) (v : Variable) : (s.flip v).flip v = s := by
  refine ext_isActive fun w => ?_
  simp only [flip, isActive_set, if_true, Bool.not_not]
  by_cases same : v = w
  · rw [if_pos same, same]
  · rw [if_neg same, if_neg same]

theorem ofIndex_cons (index : Nat) (v : Variable) (rest : List Variable) (w : Variable) :
    (ofIndex index (v :: rest)).isActive w =
      ((ofIndex index rest).isActive w || (index.testBit rest.length && decide (v = w))) := by
  rw [ofIndex]
  cases bit : index.testBit rest.length with
  | false => simp
  | true => simp

/-- Variables outside the list are false. -/
theorem isActive_ofIndex_of_not_mem (index : Nat) {vs : List Variable} {v : Variable}
    (outside : v ∉ vs) : (ofIndex index vs).isActive v = false := by
  induction vs with
  | nil => exact isActive_allFalse v
  | cons w rest ih =>
      obtain ⟨other, outside⟩ := List.ne_and_not_mem_of_not_mem_cons outside
      rw [ofIndex_cons, ih outside, decide_eq_false (Ne.symm other), Bool.and_false, Bool.or_false]

/-- A variable has the bit of its place, where the first place is the highest bit. -/
theorem isActive_ofIndex (index : Nat) {vs : List Variable} (nodup : vs.Nodup) {place : Nat}
    (inside : place < vs.length) :
    (ofIndex index vs).isActive vs[place] = index.testBit (vs.length - 1 - place) := by
  induction vs generalizing place with
  | nil => exact absurd inside (Nat.not_lt_zero _)
  | cons v rest ih =>
      obtain ⟨fresh, nodup⟩ := List.nodup_cons.mp nodup
      rw [ofIndex_cons]
      cases place with
      | zero =>
          rw [List.getElem_cons_zero, isActive_ofIndex_of_not_mem index fresh]
          simp
      | succ place =>
          have inside : place < rest.length := Nat.lt_of_succ_lt_succ inside
          have other : v ≠ rest[place] := fun same => fresh (same ▸ List.getElem_mem inside)
          rw [List.getElem_cons_succ, decide_eq_false other, Bool.and_false, Bool.or_false,
            ih nodup inside, List.length_cons]
          congr 1
          omega

/-- The bits that a row starts with move up by one place for each variable. -/
theorem testBit_foldl_start (s : State) (vs : List Variable) (start bit : Nat) :
    (vs.foldl (fun index v => 2 * index + (s.isActive v).toNat) start).testBit
      (vs.length + bit) = start.testBit bit := by
  induction vs generalizing start bit with
  | nil => rw [List.length_nil, Nat.zero_add, List.foldl_nil]
  | cons v rest ih =>
      rw [List.foldl_cons, List.length_cons, Nat.add_assoc, Nat.add_comm 1 bit, ih,
        Nat.testBit_succ]
      congr 1
      have small : (s.isActive v).toNat < 2 := Bool.toNat_lt _
      omega

/-- Each place of the row holds the value of its variable. -/
theorem testBit_foldl (s : State) (vs : List Variable) (start : Nat) {place : Nat}
    (inside : place < vs.length) :
    (vs.foldl (fun index v => 2 * index + (s.isActive v).toNat) start).testBit
      (vs.length - 1 - place) = s.isActive vs[place] := by
  induction vs generalizing start place with
  | nil => exact absurd inside (Nat.not_lt_zero _)
  | cons v rest ih =>
      rw [List.foldl_cons]
      cases place with
      | zero =>
          have shifted := testBit_foldl_start s rest (2 * start + (s.isActive v).toNat) 0
          rw [Nat.add_zero] at shifted
          rw [List.getElem_cons_zero, List.length_cons, Nat.add_sub_cancel, Nat.sub_zero, shifted]
          cases s.isActive v <;> simp [Nat.testBit_zero]
      | succ place =>
          have inside : place < rest.length := Nat.lt_of_succ_lt_succ inside
          rw [List.getElem_cons_succ, ← ih _ inside, List.length_cons]
          congr 1
          omega

theorem foldl_lt (s : State) (vs : List Variable) (start : Nat) :
    vs.foldl (fun index v => 2 * index + (s.isActive v).toNat) start <
      (start + 1) * 2 ^ vs.length := by
  induction vs generalizing start with
  | nil => simp
  | cons v rest ih =>
      have small : (s.isActive v).toNat ≤ 1 := Bool.toNat_le _
      calc rest.foldl _ (2 * start + (s.isActive v).toNat)
          < (2 * start + (s.isActive v).toNat + 1) * 2 ^ rest.length := ih _
        _ ≤ (2 * (start + 1)) * 2 ^ rest.length := Nat.mul_le_mul_right _ (by omega)
        _ = (start + 1) * 2 ^ (v :: rest).length := by rw [List.length_cons, pow_succ]; ring

theorem le_foldl (s : State) (vs : List Variable) (start : Nat) :
    start * 2 ^ vs.length ≤ vs.foldl (fun index v => 2 * index + (s.isActive v).toNat) start := by
  induction vs generalizing start with
  | nil => simp
  | cons v rest ih =>
      calc start * 2 ^ (v :: rest).length
          = (2 * start) * 2 ^ rest.length := by rw [List.length_cons, pow_succ]; ring
        _ ≤ (2 * start + (s.isActive v).toNat) * 2 ^ rest.length :=
            Nat.mul_le_mul_right _ (Nat.le_add_right _ _)
        _ ≤ rest.foldl _ (2 * start + (s.isActive v).toNat) := ih _

variable {vs : List Variable}

/-- Up to sixty-four variables no bit of a row is lost. -/
theorem toIndex_eq_foldl (s : State) (short : vs.length ≤ 64) :
    s.toIndex vs = vs.foldl (fun index v => 2 * index + (s.isActive v).toNat) 0 := by
  rw [toIndex, Nat.mod_eq_of_lt]
  calc vs.foldl (fun index v => 2 * index + (s.isActive v).toNat) 0
      < (0 + 1) * 2 ^ vs.length := foldl_lt s vs 0
    _ = 2 ^ vs.length := by rw [Nat.zero_add, Nat.one_mul]
    _ ≤ UInt64.size := Nat.pow_le_pow_right Nat.two_pos short

theorem toIndex_lt (s : State) (short : vs.length ≤ 64) : s.toIndex vs < 2 ^ vs.length := by
  have bound := foldl_lt s vs 0
  rwa [Nat.zero_add, Nat.one_mul, ← toIndex_eq_foldl s short] at bound

/-- The first variable on which two states differ decides the order of their rows. -/
theorem toIndex_append_cons_lt {s t : State} {front rest : List Variable} {v : Variable}
    (short : (front ++ v :: rest).length ≤ 64)
    (same : ∀ w ∈ front, s.isActive w = t.isActive w) (low : s.isActive v = false)
    (high : t.isActive v = true) :
    s.toIndex (front ++ v :: rest) < t.toIndex (front ++ v :: rest) := by
  have start : front.foldl (fun index w => 2 * index + (s.isActive w).toNat) 0 =
      front.foldl (fun index w => 2 * index + (t.isActive w).toNat) 0 :=
    List.foldl_ext _ _ _ fun index w listed => by rw [same w listed]
  rw [toIndex_eq_foldl s short, toIndex_eq_foldl t short, List.foldl_append, List.foldl_append,
    List.foldl_cons, List.foldl_cons, start, low, high]
  exact (foldl_lt s rest _).trans_le (le_foldl t rest _)

theorem testBit_toIndex (s : State) (short : vs.length ≤ 64) {place : Nat}
    (inside : place < vs.length) :
    (s.toIndex vs).testBit (vs.length - 1 - place) = s.isActive vs[place] := by
  rw [toIndex_eq_foldl s short]
  exact testBit_foldl s vs 0 inside

/-- The state of the row of a state has the same values on the listed variables. -/
theorem isActive_ofIndex_toIndex (s : State) (nodup : vs.Nodup) (short : vs.length ≤ 64)
    {v : Variable} (listed : v ∈ vs) : (ofIndex (s.toIndex vs) vs).isActive v = s.isActive v := by
  obtain ⟨place, inside, rfl⟩ := List.getElem_of_mem listed
  rw [isActive_ofIndex _ nodup inside, testBit_toIndex s short inside]

/-- The row of the state of a row is that row. -/
theorem toIndex_ofIndex {index : Nat} (nodup : vs.Nodup) (short : vs.length ≤ 64)
    (inside : index < 2 ^ vs.length) : (ofIndex index vs).toIndex vs = index := by
  refine Nat.eq_of_testBit_eq fun bit => ?_
  by_cases low : bit < vs.length
  · have place : vs.length - 1 - bit < vs.length := by omega
    have mirrored : vs.length - 1 - (vs.length - 1 - bit) = bit := by omega
    have read := testBit_toIndex (ofIndex index vs) short place
    rwa [isActive_ofIndex index nodup place, mirrored] at read
  · have large : 2 ^ vs.length ≤ 2 ^ bit := Nat.pow_le_pow_right Nat.two_pos (by omega)
    rw [Nat.testBit_lt_two_pow (lt_of_lt_of_le (toIndex_lt _ short) large),
      Nat.testBit_lt_two_pow (lt_of_lt_of_le inside large)]

/-- The state of a row gives values to listed variables only, and any such state is the state of
its row. -/
theorem exists_ofIndex_eq_iff (nodup : vs.Nodup) (short : vs.length ≤ 64) (s : State) :
    (∃ row < 2 ^ vs.length, ofIndex row vs = s) ↔ ∀ v, s.isActive v = true → v ∈ vs := by
  constructor
  · rintro ⟨row, _, rfl⟩ v active
    by_contra other
    rw [isActive_ofIndex_of_not_mem row other] at active
    cases active
  · intro inside
    refine ⟨s.toIndex vs, s.toIndex_lt short, ext_isActive fun v => ?_⟩
    by_cases listed : v ∈ vs
    · exact s.isActive_ofIndex_toIndex nodup short listed
    · have inactive := Bool.eq_false_iff.mpr fun active => listed (inside v active)
      rw [isActive_ofIndex_of_not_mem _ listed, inactive]

end SwitchingLogic.State
