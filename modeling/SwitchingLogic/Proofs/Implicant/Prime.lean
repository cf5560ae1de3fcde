import SwitchingLogic.Implicant.Prime
import SwitchingLogic.Proofs.Implicant.Rows

/-!
# Exactness of the prime implicants

The cubes of one dimension are all implicants with one number of literals.  This is kept when the
cubes unite: an implicant with a free position is the union of the halves across its last free one,
and both halves are implicants of the dimension below.  A cube without neighbour is therefore
prime, and every prime turns up in its dimension.
-/

namespace SwitchingLogic.Implicant

/-- The rows that the cube covers belong to the set. -/
structure IsImplicant (rows : List Nat) (width : Nat) (a : Implicant) : Prop where
  wellFormed : a.WellFormed
  width_eq : a.width = width
  covered : ∀ row < 2 ^ width, a.covers row = true → row ∈ rows

/-- Freeing any fixed position of the implicant would cover a row outside the set. -/
structure IsPrime (rows : List Nat) (width : Nat) (a : Implicant) : Prop where
  isImplicant : IsImplicant rows width a
  maximal : ∀ position < width, a.isFixed position = true →
    ¬ IsImplicant rows width (a.expand position)

/-- The cubes cover the rows of the set and no others. -/
structure IsCover (rows : List Nat) (width : Nat) (cubes : List Implicant) : Prop where
  implicants : ∀ a ∈ cubes, IsImplicant rows width a
  covering : ∀ row ∈ rows, ∃ a ∈ cubes, a.covers row = true

variable {rows : List Nat} {width : Nat} {a : Implicant}

theorem isImplicant_iff_covered :
    IsImplicant rows width a ↔
      a.WellFormed ∧ a.width = width ∧ ∀ row ∈ a.covered, row ∈ rows := by
  constructor
  · rintro ⟨wf, rfl, inside⟩
    refine ⟨wf, rfl, fun row member => ?_⟩
    obtain ⟨low, covers⟩ := (mem_covered wf).mp member
    exact inside row low covers
  · rintro ⟨wf, rfl, inside⟩
    exact ⟨wf, rfl, fun row low covers => inside row ((mem_covered wf).mpr ⟨low, covers⟩)⟩

theorem IsImplicant.of_covers {b : Implicant} (whole : IsImplicant rows width b)
    (wellFormed : a.WellFormed) (width_eq : a.width = width)
    (inside : ∀ row, a.covers row = true → b.covers row = true) : IsImplicant rows width a :=
  ⟨wellFormed, width_eq, fun row below covered => whole.covered row below (inside row covered)⟩

theorem IsImplicant.of_expand {position : Nat} (wellFormed : a.WellFormed)
    (whole : IsImplicant rows width (a.expand position)) : IsImplicant rows width a :=
  whole.of_covers wellFormed whole.width_eq fun _ => covers_expand_of_covers wellFormed position

/-- A position can be freed when the neighbour across it is an implicant. -/
theorem isImplicant_expand_iff (implicant : IsImplicant rows width a) {position : Nat}
    (inside : position < width) (fixed : a.isFixed position = true) :
    IsImplicant rows width (a.expand position) ↔ IsImplicant rows width (a.opposite position) := by
  have below : position < a.width := implicant.width_eq.symm ▸ inside
  have union := covers_expand_iff_or implicant.wellFormed below fixed
  constructor
  · intro whole
    exact whole.of_covers (implicant.wellFormed.opposite below fixed) whole.width_eq
      fun row covered => (union row).mpr (Or.inr covered)
  · intro half
    refine ⟨implicant.wellFormed.expand position, implicant.width_eq, fun row low covered => ?_⟩
    rcases (union row).mp covered with here | across
    · exact implicant.covered row low here
    · exact half.covered row low across

/-- Every implicant lies in a prime one: free positions as long as possible. -/
theorem exists_isPrime (implicant : IsImplicant rows width a) :
    ∃ p, IsPrime rows width p ∧ ∀ row, a.covers row = true → p.covers row = true := by
  generalize size : a.literalCount = literals
  induction literals using Nat.strong_induction_on generalizing a with
  | h literals ih =>
      by_cases maximal : ∀ position < width, a.isFixed position = true →
          ¬ IsImplicant rows width (a.expand position)
      · exact ⟨a, ⟨implicant, maximal⟩, fun _ covered => covered⟩
      · simp only [not_forall, not_not] at maximal
        obtain ⟨position, _, fixed, larger⟩ := maximal
        have fewer := literalCount_expand fixed
        obtain ⟨p, prime, inside⟩ := ih _ (by omega) larger rfl
        refine ⟨p, prime, fun row covered => inside row ?_⟩
        exact covers_expand_of_covers implicant.wellFormed position covered

/-- An implicant without literals cannot be freed further. -/
theorem IsImplicant.isPrime_of_literalCount_eq_zero (implicant : IsImplicant rows width a)
    (none : a.literalCount = 0) : IsPrime rows width a := by
  refine ⟨implicant, fun position _ fixed => ?_⟩
  rw [isFixed_of_literalCount_eq_zero implicant.wellFormed none] at fixed
  cases fixed

/-! ## One dimension -/

/-- The list holds the implicants with the given number of literals. -/
def IsDimension (rows : List Nat) (width literals : Nat) (cubes : List Implicant) : Prop :=
  ∀ a, a ∈ cubes ↔ IsImplicant rows width a ∧ a.literalCount = literals

variable {literals : Nat} {cubes : List Implicant}

theorem IsDimension.wellFormed (all : IsDimension rows width literals cubes) :
    ∀ a ∈ cubes, a.WellFormed ∧ a.width = width := by
  intro a member
  have implicant := ((all a).mp member).1
  exact ⟨implicant.wellFormed, implicant.width_eq⟩

theorem hasNeighbour_iff (all : IsDimension rows width literals cubes) (member : a ∈ cubes)
    {position : Nat} (inside : position < width) :
    hasNeighbour (Std.HashSet.ofList cubes) a position = true ↔
      a.isFixed position = true ∧ IsImplicant rows width (a.expand position) := by
  obtain ⟨implicant, count⟩ := (all a).mp member
  rw [hasNeighbour, Bool.and_eq_true, Std.HashSet.contains_ofList, List.contains_iff_mem, all]
  refine and_congr_right fun fixed => ?_
  rw [isImplicant_expand_iff implicant inside fixed]
  exact and_iff_left count

theorem isMaximal_iff (all : IsDimension rows width literals cubes) (member : a ∈ cubes) :
    isMaximal (Std.HashSet.ofList cubes) a = true ↔ IsPrime rows width a := by
  have implicant := ((all a).mp member).1
  rw [isMaximal, Bool.not_eq_true', List.any_eq_false]
  constructor
  · intro alone
    refine ⟨implicant, fun position inside fixed larger => ?_⟩
    have listed : position ∈ List.range a.width :=
      List.mem_range.mpr (implicant.width_eq.symm ▸ inside)
    exact alone position listed ((hasNeighbour_iff all member inside).mpr ⟨fixed, larger⟩)
  · intro prime position listed neighbour
    have inside : position < width := implicant.width_eq ▸ List.mem_range.mp listed
    obtain ⟨fixed, larger⟩ := (hasNeighbour_iff all member inside).mp neighbour
    exact prime.maximal position inside fixed larger

theorem mem_takeWhile_reverse_range {chosen : Nat → Bool} {n i : Nat} :
    i ∈ (List.range n).reverse.takeWhile chosen ↔
      i < n ∧ ∀ j, i ≤ j → j < n → chosen j = true := by
  induction n with
  | zero => simp
  | succ n ih =>
      rw [List.range_succ, List.reverse_append, List.reverse_singleton, List.singleton_append,
        List.takeWhile_cons]
      by_cases last : chosen n = true
      · rw [if_pos last, List.mem_cons, ih]
        constructor
        · rintro (rfl | ⟨below, tail⟩)
          · exact ⟨Nat.lt_succ_self _, fun j lower upper => by
              rwa [Nat.le_antisymm (Nat.le_of_lt_succ upper) lower]⟩
          · refine ⟨Nat.lt_succ_of_lt below, fun j lower upper => ?_⟩
            rcases Nat.lt_succ_iff_lt_or_eq.mp upper with inner | rfl
            · exact tail j lower inner
            · exact last
        · rintro ⟨below, tail⟩
          rcases Nat.lt_succ_iff_lt_or_eq.mp below with inner | rfl
          · exact Or.inr ⟨inner, fun j lower upper => tail j lower (Nat.lt_succ_of_lt upper)⟩
          · exact Or.inl rfl
      · rw [if_neg last]
        refine iff_of_false List.not_mem_nil fun both => last ?_
        exact both.2 n (Nat.le_of_lt_succ both.1) (Nat.lt_succ_self n)

theorem mem_fixedTail {position : Nat} :
    position ∈ a.fixedTail ↔
      position < a.width ∧ ∀ later, position ≤ later → later < a.width →
        a.isFixed later = true :=
  mem_takeWhile_reverse_range

/-- The unions of the cubes of one dimension are the cubes of the next one. -/
theorem IsDimension.flatMap_unions (all : IsDimension rows width (literals + 1) cubes)
    (fits : literals < width) :
    IsDimension rows width literals
      (cubes.flatMap (unions (Std.HashSet.ofList cubes))) := by
  intro c
  simp only [List.mem_flatMap, unions, List.mem_map, List.mem_filter, mem_fixedTail,
    Bool.and_eq_true, Bool.not_eq_true']
  constructor
  · rintro ⟨a, member, position, ⟨⟨below, _⟩, _, neighbour⟩, rfl⟩
    obtain ⟨implicant, count⟩ := (all a).mp member
    have inside : position < width := implicant.width_eq ▸ below
    obtain ⟨fixed, larger⟩ := (hasNeighbour_iff all member inside).mp neighbour
    have fewer := literalCount_expand fixed
    exact ⟨larger, by omega⟩
  · rintro ⟨implicant, count⟩
    obtain ⟨wf, rfl, _⟩ := id implicant
    obtain ⟨position, below, open', tail⟩ := exists_last_free wf (count ▸ fits)
    have whole := expand_lowerHalf wf below open'
    have fixedHere : (c.lowerHalf position).isFixed position = true := by
      rw [isFixed_lowerHalf wf below, decide_eq_true rfl, Bool.or_true]
    have half : IsImplicant rows c.width (c.lowerHalf position) :=
      IsImplicant.of_expand (wf.lowerHalf below) (whole.symm ▸ implicant)
    have member : c.lowerHalf position ∈ cubes :=
      (all _).mpr ⟨half, by rw [literalCount_lowerHalf wf below open', count]⟩
    refine ⟨c.lowerHalf position, member, position, ⟨⟨below, ?_⟩, ?_, ?_⟩, whole⟩
    · intro later after inside
      rcases Nat.eq_or_lt_of_le after with rfl | after
      · exact fixedHere
      · rw [isFixed_lowerHalf wf below, tail later after inside, Bool.true_or]
    · exact bit_lowerHalf wf open'
    · exact (hasNeighbour_iff all member below).mpr ⟨fixedHere, whole.symm ▸ implicant⟩

/-- From all implicants of one dimension the primes of it and of all later ones are found. -/
theorem mem_primesFrom (all : IsDimension rows width literals cubes) (fits : literals ≤ width) :
    a ∈ primesFrom literals cubes ↔ IsPrime rows width a ∧ a.literalCount ≤ literals := by
  induction literals generalizing cubes with
  | zero =>
      rw [primesFrom, all]
      constructor
      · rintro ⟨implicant, none⟩
        exact ⟨implicant.isPrime_of_literalCount_eq_zero none, none.le⟩
      · rintro ⟨prime, none⟩
        exact ⟨prime.isImplicant, Nat.le_zero.mp none⟩
  | succ literals ih =>
      rw [primesFrom, List.mem_append, List.mem_filter, ih (all.flatMap_unions fits)
        (Nat.le_of_succ_le fits)]
      constructor
      · rintro (⟨member, maximal⟩ | ⟨prime, count⟩)
        · exact ⟨(isMaximal_iff all member).mp maximal, ((all a).mp member).2.le⟩
        · exact ⟨prime, Nat.le_succ_of_le count⟩
      · rintro ⟨prime, count⟩
        rcases Nat.le_succ_iff.mp count with fewer | same
        · exact Or.inr ⟨prime, fewer⟩
        · have member := (all a).mpr ⟨prime.isImplicant, same⟩
          exact Or.inl ⟨member, (isMaximal_iff all member).mpr prime⟩

/-! ## All dimensions -/

theorem literalCount_minterm (row : Nat) (fits : width ≤ maxWidth) :
    (minterm row width).literalCount = width := by
  rw [literalCount_eq (wellFormed_minterm row fits)]
  refine (List.countP_eq_length.mpr fun i member => ?_).trans List.length_range
  exact (getLsbD_fullMask fits i).trans (decide_eq_true (List.mem_range.mp member))

/-- A cube that fixes all positions is the cube of a row. -/
theorem eq_minterm_of_literalCount (wf : a.WellFormed) (full : a.literalCount = a.width) :
    a.value.toNat < 2 ^ a.width ∧ a = minterm a.value.toNat a.width := by
  have cared (i : Nat) (low : i < a.width) : a.care.getLsbD i = true := by
    rw [literalCount_eq wf] at full
    exact List.countP_eq_length.mp (full.trans List.length_range.symm) i (List.mem_range.mpr low)
  constructor
  · refine Nat.lt_pow_two_of_testBit _ fun i high => ?_
    by_contra set
    have value : a.value.getLsbD i = true := by
      rwa [Bool.not_eq_false, BitVec.testBit_toNat] at set
    exact absurd (wf.lt_width i (wf.care_of_value i value)) (Nat.not_lt.mpr high)
  · refine ext_bits rfl (fun i _ => ?_) (fun i _ => ?_)
    · by_cases low : i < a.width
      · rw [value_minterm _ wf.width_le low, BitVec.testBit_toNat]
      · rw [minterm, BitVec.getLsbD_and, getLsbD_fullMask wf.width_le, decide_eq_false low,
          Bool.and_false]
        by_contra set
        exact low (wf.lt_width i (wf.care_of_value i (Bool.not_eq_false _ ▸ set)))
    · rw [minterm, getLsbD_fullMask wf.width_le]
      by_cases low : i < a.width
      · rw [cared i low, decide_eq_true low]
      · rw [decide_eq_false low]
        by_contra set
        exact low (wf.lt_width i (Bool.not_eq_false _ ▸ set))

theorem isImplicant_minterm (fits : width ≤ maxWidth) (below : ∀ row ∈ rows, row < 2 ^ width)
    {row : Nat} (member : row ∈ rows) : IsImplicant rows width (minterm row width) := by
  refine ⟨wellFormed_minterm row fits, rfl, fun other low covered => ?_⟩
  rwa [(covers_minterm_iff fits (below row member) low).mp covered]

/-- The rows themselves are the first dimension. -/
theorem isDimension_minterms (fits : width ≤ maxWidth) (below : ∀ row ∈ rows, row < 2 ^ width) :
    IsDimension rows width width
      (Std.HashSet.ofList (rows.map (minterm · width))).toList := by
  intro a
  rw [Std.HashSet.mem_toList, Std.HashSet.mem_ofList, List.contains_iff_mem, List.mem_map]
  constructor
  · rintro ⟨row, member, rfl⟩
    exact ⟨isImplicant_minterm fits below member, literalCount_minterm row fits⟩
  · rintro ⟨⟨wf, rfl, covered⟩, full⟩
    obtain ⟨low, same⟩ := eq_minterm_of_literalCount wf full
    have here := (covers_minterm_iff fits low low).mpr rfl
    exact ⟨a.value.toNat, covered _ low
      ((congrArg (fun c => c.covers a.value.toNat) same).trans here), same.symm⟩

/-- The prime implicants found are all prime implicants of the rows. -/
theorem mem_primes (fits : width ≤ maxWidth) (below : ∀ row ∈ rows, row < 2 ^ width) :
    a ∈ primes rows width ↔ IsPrime rows width a := by
  rw [primes, List.mem_mergeSort, mem_primesFrom (isDimension_minterms fits below) le_rfl]
  refine and_iff_left_of_imp fun prime => ?_
  exact (literalCount_le prime.isImplicant.wellFormed).trans prime.isImplicant.width_eq.le

/-- Every row lies in a prime implicant. -/
theorem exists_mem_primes (fits : width ≤ maxWidth) (below : ∀ row ∈ rows, row < 2 ^ width)
    {row : Nat} (member : row ∈ rows) : ∃ p ∈ primes rows width, p.covers row = true := by
  obtain ⟨p, prime, inside⟩ := exists_isPrime (isImplicant_minterm fits below member)
  have low := below row member
  exact ⟨p, (mem_primes fits below).mpr prime,
    inside row ((covers_minterm_iff fits low low).mpr rfl)⟩

end SwitchingLogic.Implicant
