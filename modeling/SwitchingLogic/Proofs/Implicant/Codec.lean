import SwitchingLogic.Proofs.Implicant.Rows

/-!
# Written implicants are read back

The character of a position tells whether it is fixed and to which bit, so that cubes that fit their
masks and are written alike are equal.  Reading sets the bits of both masks that writing looks at.
It accepts the texts that have up to thirty-two characters, all of them bits or dashes, when white
space is left out; what is read from such a text is written as that text.
-/

namespace SwitchingLogic.Implicant

variable {a b : Implicant} {value care value' care' : BitVec 32} {width : Nat} {cs : List Char}

def IsPositionChar (c : Char) : Prop := c = '0' ∨ c = '1' ∨ c = '-'

theorem length_chars (a : Implicant) : a.chars.length = a.width := by
  rw [chars, List.length_map, List.length_range]

theorem toList_text (a : Implicant) : a.text.toList = a.chars := String.toList_ofList

theorem isPositionChar_of_mem_chars {c : Char} (member : c ∈ a.chars) : IsPositionChar c := by
  obtain ⟨position, _, rfl⟩ := List.mem_map.mp member
  unfold positionChar
  split
  · split
    · exact Or.inr (Or.inl rfl)
    · exact Or.inl rfl
  · exact Or.inr (Or.inr rfl)

theorem dropBlanks_eq_self (positions : ∀ c ∈ cs, IsPositionChar c) : Text.dropBlanks cs = cs := by
  refine List.filter_eq_self.mpr fun c member => ?_
  obtain rfl | rfl | rfl := positions c member <;> rfl

/-- The first character stands for the highest bit, the others are those of the lower ones. -/
theorem chars_succ (value care : BitVec 32) (width : Nat) :
    chars ⟨value, care, width + 1⟩ =
      (if care.getLsbD width then if value.getLsbD width then '1' else '0' else '-') ::
        chars ⟨value, care, width⟩ := by
  rw [chars, List.range_succ_eq_map, List.map_cons, List.map_map]
  refine congrArg _ (List.map_congr_left fun position _ => ?_)
  have same : width + 1 - 1 - (position + 1) = width - 1 - position := by omega
  simp only [Function.comp_apply, positionChar, isFixed, bit, Nat.succ_eq_add_one, same]
  rfl

/-- Only the bits below the width are written. -/
theorem chars_congr (cares : ∀ i < width, care.getLsbD i = care'.getLsbD i)
    (values : ∀ i < width, value.getLsbD i = value'.getLsbD i) :
    chars ⟨value, care, width⟩ = chars ⟨value', care', width⟩ := by
  induction width with
  | zero => rfl
  | succ width ih =>
      rw [chars_succ, chars_succ, cares width width.lt_succ_self, values width width.lt_succ_self,
        ih (fun i low => cares i (Nat.lt_succ_of_lt low))
          fun i low => values i (Nat.lt_succ_of_lt low)]

/-- The written bits are known from the text. -/
theorem bits_of_chars_eq (same : chars ⟨value, care, width⟩ = chars ⟨value', care', width⟩)
    {i : Nat} (low : i < width) : care.getLsbD i = care'.getLsbD i ∧
      (care.getLsbD i = true → value.getLsbD i = value'.getLsbD i) := by
  induction width with
  | zero => exact absurd low (Nat.not_lt_zero i)
  | succ width ih =>
      rw [chars_succ, chars_succ, List.cons.injEq] at same
      obtain below | rfl := Nat.lt_succ_iff_lt_or_eq.mp low
      · exact ih same.2 below
      · have first := same.1
        revert first
        cases care.getLsbD i <;> cases care'.getLsbD i <;> cases value.getLsbD i <;>
          cases value'.getLsbD i <;> decide

/-- Cubes that fit their masks and are written alike are equal. -/
theorem eq_of_chars_eq (wf : a.WellFormed) (wf' : b.WellFormed) (same : a.chars = b.chars) :
    a = b := by
  have width : a.width = b.width := by rw [← length_chars a, same, length_chars]
  have same' : chars ⟨a.value, a.care, a.width⟩ = chars ⟨b.value, b.care, a.width⟩ :=
    same.trans (by rw [width])
  have bits {i : Nat} (low : i < a.width) := bits_of_chars_eq same' low
  have care (i : Nat) : a.care.getLsbD i = b.care.getLsbD i := by
    by_cases low : i < a.width
    · exact (bits low).1
    · rw [Bool.eq_iff_iff]
      exact iff_of_false (fun cared => low (wf.lt_width i cared))
        fun cared => low (width ▸ wf'.lt_width i cared)
  refine ext_bits width (fun i _ => ?_) fun i _ => care i
  cases cared : a.care.getLsbD i with
  | true => exact (bits (wf.lt_width i cared)).2 cared
  | false => rw [wf.value_eq_false cared, wf'.value_eq_false ((care i).symm.trans cared)]

/-- One more character in front sets the bits of its own place. -/
theorem readMasks?_cons_eq_some_iff {c : Char} {rest : List Char} :
    readMasks? (c :: rest) = some (value', care') ↔
      ∃ value care, readMasks? rest = some (value, care) ∧ IsPositionChar c ∧
        value' = (if c = '1' then value ||| BitVec.twoPow 32 rest.length else value) ∧
        care' = (if c = '-' then care else care ||| BitVec.twoPow 32 rest.length) := by
  have step : readMasks? (c :: rest) = (readMasks? rest).bind fun masks =>
      if c = '-' then some (masks.1, masks.2)
      else if c = '0' then some (masks.1, masks.2 ||| BitVec.twoPow 32 rest.length)
      else if c = '1' then some (masks.1 ||| BitVec.twoPow 32 rest.length,
        masks.2 ||| BitVec.twoPow 32 rest.length)
      else none := rfl
  rw [step, Option.bind_eq_some_iff, Prod.exists]
  refine exists_congr fun value => exists_congr fun care => and_congr_right fun _ => ?_
  by_cases free : c = '-'
  · subst free
    simp [IsPositionChar, eq_comm]
  · by_cases zero : c = '0'
    · subst zero
      simp [IsPositionChar, eq_comm]
    · by_cases one : c = '1'
      · subst one
        simp [IsPositionChar, eq_comm]
      · simp [IsPositionChar, free, zero, one]

theorem exists_readMasks?_iff :
    (∃ value care, readMasks? cs = some (value, care)) ↔ ∀ c ∈ cs, IsPositionChar c := by
  induction cs with
  | nil => exact iff_of_true ⟨0, 0, rfl⟩ fun _ member => absurd member List.not_mem_nil
  | cons c rest ih =>
      rw [List.forall_mem_cons, ← ih]
      simp only [readMasks?_cons_eq_some_iff]
      constructor
      · rintro ⟨_, _, value, care, behind, position, _, _⟩
        exact ⟨position, value, care, behind⟩
      · rintro ⟨position, value, care, behind⟩
        exact ⟨_, _, value, care, behind, position, rfl, rfl⟩

theorem getLsbD_or_twoPow (mask : BitVec 32) {place : Nat} (fits : place < 32) (i : Nat) :
    (mask ||| BitVec.twoPow 32 place).getLsbD i = (mask.getLsbD i || decide (place = i)) := by
  rw [BitVec.getLsbD_or, BitVec.getLsbD_twoPow, decide_eq_true fits, Bool.true_and]

/-- What is read from characters is written with the same characters. -/
theorem chars_of_readMasks? (short : cs.length ≤ maxWidth)
    (accepted : readMasks? cs = some (value, care)) : chars ⟨value, care, cs.length⟩ = cs := by
  induction cs generalizing value care with
  | nil => rfl
  | cons c rest ih =>
      obtain ⟨value', care', behind, position, rfl, rfl⟩ := readMasks?_cons_eq_some_iff.mp accepted
      have written := ih (Nat.le_of_succ_le short) behind
      have masked := masked_readMasks? behind
      have fits : rest.length < 32 := short
      have unfixed : care'.getLsbD rest.length = false :=
        Bool.eq_false_iff.mpr fun cared => Nat.lt_irrefl _ (masked.lt_width _ cared)
      have unset : value'.getLsbD rest.length = false :=
        Bool.eq_false_iff.mpr fun set => Bool.noConfusion
          ((masked.care_of_value _ set).symm.trans unfixed)
      have kept (mask : BitVec 32) (i : Nat) (low : i < rest.length) :
          (mask ||| BitVec.twoPow 32 rest.length).getLsbD i = mask.getLsbD i := by
        rw [getLsbD_or_twoPow mask fits, decide_eq_false low.ne', Bool.or_false]
      rw [List.length_cons, chars_succ]
      obtain rfl | rfl | rfl := position
      · refine congrArg₂ List.cons ?_ ((chars_congr (kept care') fun _ _ => rfl).trans written)
        simp [getLsbD_or_twoPow _ fits, unset]
      · refine congrArg₂ List.cons ?_ ((chars_congr (kept care') (kept value')).trans written)
        simp [getLsbD_or_twoPow _ fits]
      · refine congrArg₂ List.cons ?_ written
        simp [unfixed]

theorem read_eq_ok_iff {s : String} :
    read s = .ok a ↔ (Text.dropBlanks s.toList).length ≤ maxWidth ∧
      readMasks? (Text.dropBlanks s.toList) = some (a.value, a.care) ∧
      a.width = (Text.dropBlanks s.toList).length := by
  rw [read]
  split
  · rename_i long
    simp [long]
  · rename_i short
    rw [and_iff_right (Nat.le_of_not_lt short)]
    split
    · rename_i value care masks
      rw [masks]
      cases a
      simp only [Except.ok.injEq, mk.injEq, Option.some.injEq, Prod.mk.injEq, and_assoc, eq_comm]
    · rename_i masks
      simp [masks]

/-- What is read from a text is written as that text, without its white space. -/
theorem text_of_read {s : String} (accepted : read s = .ok a) :
    a.text = String.ofList (Text.dropBlanks s.toList) := by
  obtain ⟨short, masks, width⟩ := read_eq_ok_iff.mp accepted
  refine congrArg String.ofList ?_
  rw [← chars_of_readMasks? short masks, ← width]

theorem exists_read_eq_ok_iff (s : String) :
    (∃ a, read s = .ok a) ↔ (Text.dropBlanks s.toList).length ≤ maxWidth ∧
      ∀ c ∈ Text.dropBlanks s.toList, IsPositionChar c := by
  rw [← exists_readMasks?_iff]
  constructor
  · rintro ⟨a, accepted⟩
    obtain ⟨short, masks, _⟩ := read_eq_ok_iff.mp accepted
    exact ⟨short, a.value, a.care, masks⟩
  · rintro ⟨short, value, care, masks⟩
    exact ⟨⟨value, care, _⟩, read_eq_ok_iff.mpr ⟨short, masks, rfl⟩⟩

/-- The text of a cube is read, and what is read is written alike. -/
theorem read_text (wf : a.WellFormed) : read a.text = .ok a := by
  have positions : ∀ c ∈ a.chars, IsPositionChar c := fun _ => isPositionChar_of_mem_chars
  have bare : Text.dropBlanks a.text.toList = a.chars := by
    rw [toList_text, dropBlanks_eq_self positions]
  obtain ⟨b, accepted⟩ := (exists_read_eq_ok_iff a.text).mpr <| by
    rw [bare, length_chars]
    exact ⟨wf.width_le, positions⟩
  have width : b.width = a.width := by
    rw [(read_eq_ok_iff.mp accepted).2.2, bare, length_chars]
  have wf' : b.WellFormed := (masked_read accepted).wellFormed (width ▸ wf.width_le)
  have written : b.chars = a.chars := by
    rw [← toList_text b, text_of_read accepted, bare, String.toList_ofList]
  rw [accepted, eq_of_chars_eq wf' wf written]

/-! ## Reading place by place -/

/-- Read the characters from a position on and set the bits of each position in both masks. -/
def readFrom? (width : Nat) : Nat → BitVec 32 × BitVec 32 → List Char →
    Option (BitVec 32 × BitVec 32)
  | _, masks, [] => some masks
  | position, (value, care), c :: rest =>
      let mask := positionMask position width
      if c = '-' then readFrom? width (position + 1) (value, care) rest
      else if c = '0' then readFrom? width (position + 1) (value, care ||| mask) rest
      else if c = '1' then readFrom? width (position + 1) (value ||| mask, care ||| mask) rest
      else none

/-- The order in which the positions are gone through makes no difference. -/
theorem readFrom?_eq (position : Nat) (value care : BitVec 32) (cs : List Char) :
    readFrom? (position + cs.length) position (value, care) cs =
      (readMasks? cs).map fun masks => (value ||| masks.1, care ||| masks.2) := by
  induction cs generalizing position value care with
  | nil => simp [readFrom?, readMasks?]
  | cons c rest ih =>
      have place : position + (rest.length + 1) - 1 - position = rest.length := by omega
      have width : position + (rest.length + 1) = position + 1 + rest.length := by omega
      have swap (mask mask' bit : BitVec 32) :
          mask ||| bit ||| mask' = mask ||| (mask' ||| bit) := by
        rw [BitVec.or_assoc, BitVec.or_comm bit]
      simp only [readFrom?, readMasks?, List.length_cons, positionMask, place]
      rw [width, ih, ih, ih]
      cases readMasks? rest with
      | none => simp
      | some masks =>
          by_cases free : c = '-'
          · simp [free]
          · by_cases zero : c = '0'
            · simp [zero, swap]
            · by_cases one : c = '1'
              · simp [one, swap]
              · simp [free, zero, one]

theorem readMasks?_eq_readFrom? (cs : List Char) :
    readMasks? cs = readFrom? cs.length 0 (0, 0) cs := by
  have whole := readFrom?_eq 0 0 0 cs
  simpa using whole.symm

/-- Writing and reading are inverse to each other.  A cube that fits its masks is read back from its
text, and the texts that are accepted, those of up to thirty-two bits and dashes besides white
space, are written again as they were without white space. -/
theorem codec_exact :
    (∀ a : Implicant, a.WellFormed → read a.text = .ok a) ∧
      ∀ s : String,
        ((∃ a, read s = .ok a) ↔ (Text.dropBlanks s.toList).length ≤ maxWidth ∧
          ∀ c ∈ Text.dropBlanks s.toList, c = '0' ∨ c = '1' ∨ c = '-') ∧
        ∀ a, read s = .ok a → a.text = String.ofList (Text.dropBlanks s.toList) :=
  ⟨fun _ => read_text, fun s => ⟨exists_read_eq_ok_iff s, fun _ => text_of_read⟩⟩

/-- A cube over thirty-two positions that is written differently backwards, and a text with white
space in it. -/
theorem codec_exact_widest :
    let a : Implicant := (minterm 2147483653 32).expand 30
    a.WellFormed ∧ a.text = "100000000000000000000000000001-1" ∧ read a.text = .ok a ∧
      ∃ b, read " 1 -\t0" = .ok b ∧ b.text = "1-0" := by
  intro a
  have wf : a.WellFormed := (wellFormed_minterm 2147483653 (Nat.le_refl 32)).expand 30
  have bare : Text.dropBlanks " 1 -\t0".toList = ['1', '-', '0'] := by decide +kernel
  obtain ⟨b, accepted⟩ := (codec_exact.2 " 1 -\t0").1.mpr <| by
    rw [bare]
    exact ⟨by decide, by simp⟩
  refine ⟨wf, by decide +kernel, codec_exact.1 a wf, b, accepted, ?_⟩
  rw [(codec_exact.2 " 1 -\t0").2 b accepted, bare]

end SwitchingLogic.Implicant
