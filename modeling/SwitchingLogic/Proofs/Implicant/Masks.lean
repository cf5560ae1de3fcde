import SwitchingLogic.Implicant.Codec

/-!
# Masks of implicants

However a cube is made, from a row, by uniting, by freeing or by reading, its values stand at fixed
positions and its fixed positions lie below the width.  Uniting and freeing only clear bits of both
masks alike, and a character that is read sets the bit of its own place.
-/

namespace SwitchingLogic.Implicant

/-- Values stand only at bits cared for, and these lie below the width. -/
structure Masked (a : Implicant) : Prop where
  care_of_value : ∀ i, a.value.getLsbD i = true → a.care.getLsbD i = true
  lt_width : ∀ i, a.care.getLsbD i = true → i < a.width

inductive Made : Implicant → Prop where
  | minterm (row width : Nat) : Made (minterm row width)
  | free (width : Nat) : Made (free width)
  | united {a b c : Implicant} (left : Made a) (right : Made b) (union : a.merge? b = some c) :
      Made c
  | expanded {a : Implicant} (made : Made a) (position : Nat) : Made (a.expand position)
  | read {s : String} {a : Implicant} (accepted : read s = .ok a) : Made a

variable {a b c : Implicant}

theorem fullMask?_eq_some {width : Nat} (fits : width ≤ maxWidth) :
    fullMask? width = some (fullMask width) := by
  rw [fullMask?, if_pos fits]
  split
  · rename_i zero
    rw [zero]
    rfl
  · refine congrArg some (BitVec.eq_of_getLsbD_eq fun i inside => ?_)
    rw [fullMask, BitVec.getLsbD_ushiftRight, BitVec.getLsbD_allOnes, BitVec.getLsbD_ofNat,
      Nat.one_shiftLeft, Nat.testBit_two_pow_sub_one, decide_eq_true inside, Bool.true_and]
    rw [maxWidth] at fits ⊢
    exact decide_eq_decide.mpr (by omega)

/-- There is no mask of more positions than the word has bits. -/
theorem fullMask?_eq_none {width : Nat} (wide : maxWidth < width) : fullMask? width = none := by
  rw [fullMask?, if_neg (Nat.ne_zero_of_lt wide), if_neg (Nat.not_le.mpr wide)]

theorem masked_minterm (row width : Nat) : (minterm row width).Masked where
  care_of_value i value := by
    rw [minterm, BitVec.getLsbD_and, Bool.and_eq_true] at value
    exact value.2
  lt_width i cared := by
    rw [minterm, fullMask, BitVec.getLsbD_ofNat, Bool.and_eq_true, Nat.one_shiftLeft,
      Nat.testBit_two_pow_sub_one] at cared
    exact of_decide_eq_true cared.2

theorem masked_free (width : Nat) : (free width).Masked where
  care_of_value _ value := value
  lt_width _ cared := Bool.noConfusion (BitVec.getLsbD_zero.symm.trans cared)

/-- Clearing the same bits in both masks keeps values at bits cared for. -/
theorem Masked.clear (masked : a.Masked) (mask : BitVec 32) :
    Masked ⟨a.value &&& ~~~mask, a.care &&& ~~~mask, a.width⟩ where
  care_of_value i value := by
    rw [BitVec.getLsbD_and, Bool.and_eq_true] at value ⊢
    exact ⟨masked.care_of_value i value.1, value.2⟩
  lt_width i cared := by
    rw [BitVec.getLsbD_and, Bool.and_eq_true] at cared
    exact masked.lt_width i cared.1

theorem Masked.united (masked : a.Masked) (union : a.merge? b = some c) : c.Masked := by
  simp only [merge?] at union
  split at union
  · cases union
    exact masked.clear _
  · cases union

theorem Masked.expanded (masked : a.Masked) (position : Nat) : (a.expand position).Masked :=
  masked.clear _

/-- One more character in front leaves the bits of the places behind it as they were. -/
theorem Masked.widen {value care : BitVec 32} {width : Nat} (masked : Masked ⟨value, care, width⟩) :
    Masked ⟨value, care, width + 1⟩ where
  care_of_value := masked.care_of_value
  lt_width i cared := Nat.lt_succ_of_lt (masked.lt_width i cared)

/-- A digit in front fixes the place in front. -/
theorem Masked.fix {value care : BitVec 32} {width : Nat} (masked : Masked ⟨value, care, width⟩)
    {value' : BitVec 32}
    (digit : value' = value ∨ value' = value ||| BitVec.twoPow 32 width) :
    Masked ⟨value', care ||| BitVec.twoPow 32 width, width + 1⟩ where
  care_of_value i set := by
    rw [BitVec.getLsbD_or, Bool.or_eq_true]
    rcases digit with rfl | rfl
    · exact Or.inl (masked.care_of_value i set)
    · rw [BitVec.getLsbD_or, Bool.or_eq_true] at set
      exact set.imp_left (masked.care_of_value i)
  lt_width i cared := by
    rw [BitVec.getLsbD_or, Bool.or_eq_true, BitVec.getLsbD_twoPow, Bool.and_eq_true,
      decide_eq_true_eq, decide_eq_true_eq] at cared
    rcases cared with behind | ⟨_, rfl⟩
    · exact Nat.lt_succ_of_lt (masked.lt_width i behind)
    · exact Nat.lt_succ_self width

theorem masked_readMasks? {cs : List Char} {value care : BitVec 32}
    (accepted : readMasks? cs = some (value, care)) : Masked ⟨value, care, cs.length⟩ := by
  induction cs generalizing value care with
  | nil =>
      cases accepted
      exact masked_free 0
  | cons c rest ih =>
      obtain ⟨⟨value', care'⟩, behind, front⟩ := Option.bind_eq_some_iff.mp accepted
      have masked := ih behind
      dsimp only at front
      split at front
      · cases front
        exact masked.widen
      · split at front
        · cases front
          exact masked.fix (Or.inl rfl)
        · split at front
          · cases front
            exact masked.fix (Or.inr rfl)
          · cases front

theorem masked_read {s : String} (accepted : read s = .ok a) : a.Masked := by
  rw [read] at accepted
  split at accepted
  · cases accepted
  · split at accepted
    · rename_i masks
      cases accepted
      exact masked_readMasks? masks
    · cases accepted

/-- Every cube that can be made fits its masks. -/
theorem Made.masked (made : Made a) : a.Masked := by
  induction made with
  | minterm row width => exact masked_minterm row width
  | free width => exact masked_free width
  | united _ _ union masked _ => exact masked.united union
  | expanded _ position masked => exact masked.expanded position
  | read accepted => exact masked_read accepted

end SwitchingLogic.Implicant
