import SwitchingLogic.Proofs.Implicant.PrimeTerms

/-!
# Tables of cubes

The prime implicants can also be found with tables.  A table holds the cubes of one dimension in
groups, by their number of positions fixed to one, and the next table is made of the unions of
cubes of adjacent groups.  Cubes that unite differ in one fixed position, so that they always stand
in adjacent groups; a cube of the next dimension is the union of its halves across any free
position, and the cubes that are left over in a table are the prime ones.  With each table the
highest group disappears, and so the tables come to an end.
-/

namespace SwitchingLogic.Implicant

variable {rows : List Nat} {width literals : Nat} {a b c : Implicant}
  {cubes cubes' : List Implicant}

theorem countOnes_eq_one_iff {mask : BitVec 32} :
    countOnes mask = 1 ↔ ∃ i < 32, mask = BitVec.twoPow 32 i := by
  constructor
  · intro single
    rw [countOnes, List.countP_eq_length_filter, List.length_eq_one_iff] at single
    obtain ⟨i, found⟩ := single
    have set (j : Nat) (low : j < 32) : mask.getLsbD j = true ↔ j = i := by
      have member : j ∈ (List.range 32).filter mask.getLsbD ↔ j = i :=
        found.symm ▸ List.mem_singleton
      rwa [List.mem_filter, List.mem_range, and_iff_right low] at member
    have listed : i ∈ (List.range 32).filter mask.getLsbD := found ▸ List.mem_singleton.mpr rfl
    have low : i < 32 := List.mem_range.mp (List.mem_filter.mp listed).1
    refine ⟨i, low, BitVec.eq_of_getLsbD_eq fun j inside => ?_⟩
    rw [BitVec.getLsbD_twoPow, decide_eq_true low, Bool.true_and, Bool.eq_iff_iff, set j inside,
      decide_eq_true_eq, eq_comm]
  · rintro ⟨i, low, rfl⟩
    have set : (BitVec.twoPow 32 i).getLsbD (i + 1 - 1 - 0) = true := by
      rw [BitVec.getLsbD_twoPow, decide_eq_true low, Bool.true_and]
      exact decide_eq_true rfl
    have one := countOnes_clear set
    rw [positionMask, Nat.add_sub_cancel, Nat.sub_zero, BitVec.and_not_self] at one
    exact one.symm

theorem value_xor_opposite (a : Implicant) (position : Nat) :
    a.value ^^^ (a.opposite position).value = positionMask position a.width := by
  rw [opposite, ← BitVec.xor_assoc, BitVec.xor_self, BitVec.zero_xor]

theorem opposite_opposite (a : Implicant) (position : Nat) :
    (a.opposite position).opposite position = a := by
  change (⟨a.value ^^^ positionMask position a.width ^^^ positionMask position a.width, a.care,
    a.width⟩ : Implicant) = a
  rw [BitVec.xor_assoc, BitVec.xor_self, BitVec.xor_zero]

/-- Across a position fixed to zero the neighbour has one position more fixed to one. -/
theorem ones_opposite (wf : a.WellFormed) {position : Nat} (inside : position < a.width)
    (low : a.bit position = false) : (a.opposite position).ones = a.ones + 1 := by
  have set : (a.opposite position).value.getLsbD (a.width - 1 - position) = true := by
    rw [value_opposite wf inside, decide_eq_true rfl, Bool.xor_true]
    exact congrArg (!·) low
  have cleared : (a.opposite position).value &&& ~~~positionMask position a.width = a.value := by
    refine BitVec.eq_of_getLsbD_eq fun i _ => ?_
    rw [getLsbD_and_not_positionMask, value_opposite wf inside]
    by_cases here : a.width - 1 - position = i
    · rw [decide_eq_true here, ← here]
      exact (Bool.and_false _).trans low.symm
    · rw [decide_eq_false here, Bool.xor_false, Bool.not_false, Bool.and_true]
  have one := countOnes_clear set
  rw [cleared] at one
  exact one.symm

/-- Two cubes unite when they are neighbours across a fixed position. -/
theorem merge?_eq_some_iff (wf : a.WellFormed) (wf' : b.WellFormed) :
    a.merge? b = some c ↔ ∃ position < a.width, a.isFixed position = true ∧
      b = a.opposite position ∧ c = a.expand position := by
  constructor
  · intro found
    simp only [merge?] at found
    split at found
    · rename_i alike
      obtain ⟨care, width, single⟩ := alike
      obtain ⟨i, low, difference⟩ := countOnes_eq_one_iff.mp single
      have cared : a.care.getLsbD i = true := by
        by_contra free
        have free : a.care.getLsbD i = false := Bool.eq_false_iff.mpr free
        have differ := congrArg (·.getLsbD i) difference
        simp only [BitVec.getLsbD_xor, BitVec.getLsbD_twoPow, decide_eq_true low,
          wf.value_eq_false free, wf'.value_eq_false (care ▸ free)] at differ
        simp at differ
      have inside := wf.lt_width i cared
      have place : a.width - 1 - (a.width - 1 - i) = i := by omega
      have mask : a.value ^^^ b.value = positionMask (a.width - 1 - i) a.width := by
        rw [positionMask, place, difference]
      refine ⟨a.width - 1 - i, by omega, by rwa [isFixed, place], ?_, ?_⟩
      · rw [opposite, ← mask, ← BitVec.xor_assoc, BitVec.xor_self, BitVec.zero_xor, care, width]
      · rw [expand, ← mask]
        exact (Option.some.inj found).symm
    · cases found
  · rintro ⟨position, inside, fixed, rfl, rfl⟩
    have single : countOnes (a.value ^^^ (a.opposite position).value) = 1 := by
      rw [value_xor_opposite]
      exact countOnes_eq_one_iff.mpr ⟨_, BitVec.lt_of_getLsbD fixed, rfl⟩
    simp only [merge?]
    rw [if_pos ⟨rfl, rfl, single⟩, value_xor_opposite]
    rfl

theorem ones_le_of_merge? (found : a.merge? b = some c) : c.ones ≤ a.ones := by
  simp only [merge?] at found
  split at found
  · cases found
    refine List.countP_mono_left fun i _ set => ?_
    rw [BitVec.getLsbD_and, Bool.and_eq_true] at set
    exact set.1
  · cases found

/-! ## Tables -/

def group (cubes : List Implicant) (ones : Nat) : List Implicant :=
  cubes.filter fun a => a.ones == ones

def groupUnions (cubes : List Implicant) (ones : Nat) : List Implicant :=
  (group cubes ones).flatMap fun a => (group cubes (ones + 1)).filterMap a.merge?

def isMerged (cubes : List Implicant) (a : Implicant) : Bool :=
  (group cubes (a.ones + 1)).any (fun b => (a.merge? b).isSome) ||
    cubes.any fun b => b.ones + 1 == a.ones && (b.merge? a).isSome

def tabulate (cubes : List Implicant) : List Implicant :=
  (cubes.mergeSort fun a b => (order a b).isLE).eraseDups

def nextTable (cubes : List Implicant) : List Implicant :=
  tabulate ((List.range (maxWidth + 1)).flatMap (groupUnions cubes))

def onesBound : List Implicant → Nat
  | [] => 0
  | a :: rest => max (a.ones + 1) (onesBound rest)

theorem onesBound_le_iff {n : Nat} : onesBound cubes ≤ n ↔ ∀ a ∈ cubes, a.ones < n := by
  induction cubes with
  | nil => simp [onesBound]
  | cons first rest ih =>
      rw [onesBound, Nat.max_le, ih, List.forall_mem_cons, Nat.succ_le_iff]

theorem mem_tabulate : a ∈ tabulate cubes ↔ a ∈ cubes := by
  rw [tabulate, List.mem_eraseDups, List.mem_mergeSort]

theorem mem_group {ones : Nat} : a ∈ group cubes ones ↔ a ∈ cubes ∧ a.ones = ones := by
  rw [group, List.mem_filter, beq_iff_eq]

theorem mem_nextTable :
    c ∈ nextTable cubes ↔
      ∃ a ∈ cubes, ∃ b ∈ cubes, b.ones = a.ones + 1 ∧ a.merge? b = some c := by
  simp only [nextTable, mem_tabulate, List.mem_flatMap, List.mem_range, groupUnions, mem_group,
    List.mem_filterMap]
  constructor
  · rintro ⟨_, _, a, ⟨member, rfl⟩, b, ⟨member', next⟩, found⟩
    exact ⟨a, member, b, member', next, found⟩
  · rintro ⟨a, member, b, member', next, found⟩
    have low : a.ones ≤ maxWidth := List.countP_le_length.trans List.length_range.le
    exact ⟨a.ones, Nat.lt_succ_of_le low, a, ⟨member, rfl⟩, b, ⟨member', next⟩, found⟩

/-- The highest group has no part in the next table. -/
theorem onesBound_nextTable_lt (some' : cubes ≠ []) :
    onesBound (nextTable cubes) < onesBound cubes := by
  have bound : ∀ a ∈ cubes, a.ones < onesBound cubes := onesBound_le_iff.mp le_rfl
  obtain ⟨first, listed⟩ := List.exists_mem_of_ne_nil cubes some'
  have positive := Nat.zero_lt_of_lt (bound first listed)
  have lower : onesBound (nextTable cubes) ≤ onesBound cubes - 1 := by
    rw [onesBound_le_iff]
    intro c member
    obtain ⟨a, _, b, member', next, found⟩ := mem_nextTable.mp member
    have below := bound b member'
    have fewer := ones_le_of_merge? found
    omega
  omega

/-- What is left over in a table and in all tables after it. -/
def primesFromTable (cubes : List Implicant) : List Implicant :=
  if cubes = [] then []
  else cubes.filter (fun a => !isMerged cubes a) ++ primesFromTable (nextTable cubes)
termination_by onesBound cubes
decreasing_by exact onesBound_nextTable_lt ‹_›

/-- The prime implicants of a set of rows, found with tables. -/
def primesByTables (rows : List Nat) (width : Nat) : List Implicant :=
  (primesFromTable (tabulate (rows.map (minterm · width)))).mergeSort fun a b =>
    (sizeOrder a b).isLE

theorem nextTable_nil : nextTable [] = [] := by
  refine List.eq_nil_iff_forall_not_mem.mpr fun c member => ?_
  obtain ⟨a, none, _⟩ := mem_nextTable.mp member
  cases none

theorem primesFromTable_eq (cubes : List Implicant) :
    primesFromTable cubes =
      cubes.filter (fun a => !isMerged cubes a) ++ primesFromTable (nextTable cubes) := by
  by_cases none : cubes = []
  · subst none
    rw [nextTable_nil, primesFromTable, if_pos rfl]
    rfl
  · conv_lhs => rw [primesFromTable, if_neg none]

/-! ## The cubes of one dimension -/

theorem isMerged_iff (wfs : ∀ a ∈ cubes, a.WellFormed) (member : a ∈ cubes) :
    isMerged cubes a = true ↔ ∃ position < a.width,
      a.isFixed position = true ∧ a.opposite position ∈ cubes := by
  have wf := wfs a member
  simp only [isMerged, Bool.or_eq_true, List.any_eq_true, mem_group, Bool.and_eq_true, beq_iff_eq,
    Option.isSome_iff_exists]
  constructor
  · rintro (⟨b, ⟨member', _⟩, c, found⟩ | ⟨b, member', _, c, found⟩)
    · obtain ⟨position, inside, fixed, rfl, _⟩ := (merge?_eq_some_iff wf (wfs b member')).mp found
      exact ⟨position, inside, fixed, member'⟩
    · obtain ⟨position, inside, fixed, rfl, _⟩ := (merge?_eq_some_iff (wfs b member') wf).mp found
      exact ⟨position, inside, fixed, (opposite_opposite b position).symm ▸ member'⟩
  · rintro ⟨position, inside, fixed, member'⟩
    have wf' := wfs _ member'
    cases bit : a.bit position with
    | false =>
        refine Or.inl ⟨_, ⟨member', ones_opposite wf inside bit⟩, a.expand position, ?_⟩
        exact (merge?_eq_some_iff wf wf').mpr ⟨position, inside, fixed, rfl, rfl⟩
    | true =>
        have low : (a.opposite position).bit position = false := by
          have flipped := value_opposite wf inside (a.width - 1 - position)
          rw [decide_eq_true rfl, Bool.xor_true] at flipped
          exact flipped.trans (congrArg (!·) bit)
        have back := a.opposite_opposite position
        have next := ones_opposite wf' inside low
        rw [back] at next
        refine Or.inr ⟨_, member', next.symm, (a.opposite position).expand position, ?_⟩
        exact (merge?_eq_some_iff wf' wf).mpr ⟨position, inside, fixed, back.symm, rfl⟩

/-- In the table of a dimension exactly the prime implicants are left over. -/
theorem IsDimension.isMerged_eq_false_iff (all : IsDimension rows width literals cubes)
    (member : a ∈ cubes) : isMerged cubes a = false ↔ IsPrime rows width a := by
  have implicant := ((all a).mp member).1
  rw [← isMaximal_iff all member, isMaximal, Bool.not_eq_true', ← Bool.not_eq_true,
    ← Bool.not_eq_true, isMerged_iff (fun b listed => (all.wellFormed b listed).1) member,
    List.any_eq_true]
  simp only [List.mem_range, hasNeighbour, Bool.and_eq_true, Std.HashSet.contains_ofList,
    List.contains_iff_mem]

/-- The next table holds the cubes of the next dimension. -/
theorem IsDimension.nextTable (all : IsDimension rows width (literals + 1) cubes)
    (fits : literals < width) : IsDimension rows width literals (nextTable cubes) := by
  intro c
  rw [mem_nextTable]
  constructor
  · rintro ⟨a, member, b, member', _, found⟩
    obtain ⟨implicant, count⟩ := (all a).mp member
    obtain ⟨position, inside, fixed, rfl, rfl⟩ :=
      (merge?_eq_some_iff implicant.wellFormed (all.wellFormed b member').1).mp found
    have fewer := literalCount_expand fixed
    refine ⟨?_, by omega⟩
    exact (isImplicant_expand_iff implicant (implicant.width_eq ▸ inside) fixed).mpr
      ((all _).mp member').1
  · intro next
    obtain ⟨a, member, union⟩ := List.mem_flatMap.mp ((all.flatMap_unions fits c).mpr next)
    obtain ⟨position, chosen, rfl⟩ := List.mem_map.mp union
    obtain ⟨tail, half⟩ := List.mem_filter.mp chosen
    have wf := (all.wellFormed a member).1
    have inside := (mem_fixedTail.mp tail).1
    simp only [Bool.and_eq_true, Bool.not_eq_true', hasNeighbour, Std.HashSet.contains_ofList,
      List.contains_iff_mem] at half
    obtain ⟨low, fixed, member'⟩ := half
    refine ⟨a, member, _, member', ones_opposite wf inside low, ?_⟩
    exact (merge?_eq_some_iff wf (all.wellFormed _ member').1).mpr
      ⟨position, inside, fixed, rfl, rfl⟩

theorem IsDimension.nextTable_eq_nil (all : IsDimension rows width 0 cubes) :
    Implicant.nextTable cubes = [] := by
  refine List.eq_nil_iff_forall_not_mem.mpr fun c member => ?_
  obtain ⟨a, listed, b, listed', _, found⟩ := mem_nextTable.mp member
  obtain ⟨implicant, none⟩ := (all a).mp listed
  obtain ⟨position, _, fixed, _⟩ :=
    (merge?_eq_some_iff implicant.wellFormed (all.wellFormed b listed').1).mp found
  rw [isFixed_of_literalCount_eq_zero implicant.wellFormed none] at fixed
  cases fixed

/-! ## All tables -/

theorem IsDimension.perm (all : IsDimension rows width literals cubes)
    (all' : IsDimension rows width literals cubes') (distinct : cubes.Nodup)
    (distinct' : cubes'.Nodup) : cubes.Perm cubes' :=
  (List.perm_ext_iff_of_nodup distinct distinct').mpr fun a => (all a).trans (all' a).symm

theorem nodup_tabulate (cubes : List Implicant) : (tabulate cubes).Nodup := nodup_eraseDups _

/-- From the cubes of one dimension on, the tables leave over what is found without groups. -/
theorem primesFromTable_perm (all : IsDimension rows width literals cubes)
    (all' : IsDimension rows width literals cubes') (distinct : cubes.Nodup)
    (distinct' : cubes'.Nodup) (fits : literals ≤ width) :
    (primesFromTable cubes).Perm (primesFrom literals cubes') := by
  have same := all.perm all' distinct distinct'
  induction literals generalizing cubes cubes' with
  | zero =>
      have left : cubes.filter (fun a => !isMerged cubes a) = cubes := by
        refine List.filter_eq_self.mpr fun a member => ?_
        obtain ⟨implicant, none⟩ := (all a).mp member
        rw [Bool.not_eq_true', all.isMerged_eq_false_iff member]
        exact implicant.isPrime_of_literalCount_eq_zero none
      rw [primesFromTable_eq, left, all.nextTable_eq_nil, primesFromTable, if_pos rfl,
        List.append_nil, primesFrom]
      exact same
  | succ literals ih =>
      have left : cubes'.filter (isMaximal (Std.HashSet.ofList cubes')) =
          cubes'.filter fun a => !isMerged cubes a := by
        refine List.filter_congr fun a member' => Bool.eq_iff_iff.mpr ?_
        rw [isMaximal_iff all' member', Bool.not_eq_true',
          all.isMerged_eq_false_iff (same.mem_iff.mpr member')]
      have next := all.nextTable fits
      have next' := all'.flatMap_unions fits
      have single : (Implicant.nextTable cubes).Nodup := nodup_tabulate _
      have single' := nodup_flatMap_unions all'.wellFormed distinct' (Std.HashSet.ofList cubes')
      rw [primesFromTable_eq, primesFrom, left]
      exact (same.filter _).append (ih next next' single single' (Nat.le_of_succ_le fits)
        (next.perm next' single single'))

/-- The tables find the same prime implicants, in the same order. -/
theorem primesByTables_eq (fits : width ≤ maxWidth) (below : ∀ row ∈ rows, row < 2 ^ width) :
    primesByTables rows width = primes rows width := by
  have all := isDimension_minterms fits below
  have all' : IsDimension rows width width (tabulate (rows.map (minterm · width))) := by
    intro a
    rw [← all a, mem_tabulate, Std.HashSet.mem_toList, Std.HashSet.mem_ofList,
      List.contains_iff_mem]
  have same := primesFromTable_perm all' all (nodup_tabulate _) (nodup_hashSet_toList _) le_rfl
  refine List.Perm.eq_of_pairwise (fun _ _ _ _ => eq_of_isLE_sizeOrder)
    (pairwise_mergeSort_isLE sizeOrder _) (pairwise_primes rows width) ?_
  exact (List.mergeSort_perm _ _).trans (same.trans (List.mergeSort_perm _ _).symm)

/-- The list holds each prime implicant of the rows once, by number of literals and then in the
order of cubes.  A cube is prime when it covers rows of the set only, and would cover another row
with any of its fixed positions freed. -/
structure ListsPrimes (rows : List Nat) (width : Nat) (cubes : List Implicant) : Prop where
  mem_iff : ∀ a, a ∈ cubes ↔ a.WellFormed ∧ a.width = width ∧ (∀ row ∈ a.covered, row ∈ rows) ∧
    ∀ position < width, a.isFixed position = true →
      ∃ row ∈ (a.expand position).covered, row ∉ rows
  distinct : cubes.Nodup
  ordered : cubes.Pairwise fun a b =>
    a.literalCount < b.literalCount ∨ a.literalCount = b.literalCount ∧ order a b = .lt

/-- A position that is needed shows a row that would come in without it. -/
theorem isPrime_iff_covered :
    IsPrime rows width a ↔ a.WellFormed ∧ a.width = width ∧ (∀ row ∈ a.covered, row ∈ rows) ∧
      ∀ position < width, a.isFixed position = true →
        ∃ row ∈ (a.expand position).covered, row ∉ rows := by
  have needed (wf : a.WellFormed) (same : a.width = width) (position : Nat) :
      ¬ IsImplicant rows width (a.expand position) ↔
        ∃ row ∈ (a.expand position).covered, row ∉ rows := by
    rw [isImplicant_iff_covered, and_iff_right (wf.expand position),
      and_iff_right (show (a.expand position).width = width from same)]
    simp only [not_forall, exists_prop]
  constructor
  · rintro ⟨implicant, maximal⟩
    obtain ⟨wf, same, inside⟩ := isImplicant_iff_covered.mp implicant
    exact ⟨wf, same, inside, fun position low fixed =>
      (needed wf same position).mp (maximal position low fixed)⟩
  · rintro ⟨wf, same, inside, maximal⟩
    exact ⟨isImplicant_iff_covered.mpr ⟨wf, same, inside⟩, fun position low fixed =>
      (needed wf same position).mpr (maximal position low fixed)⟩

/-- The prime implicants are listed, and the tables find the same list. -/
theorem listsPrimes_primes (fits : width ≤ maxWidth) (below : ∀ row ∈ rows, row < 2 ^ width) :
    ListsPrimes rows width (primes rows width) ∧
      primesByTables rows width = primes rows width := by
  have distinct := nodup_primes fits below
  refine ⟨⟨fun a => (mem_primes fits below).trans isPrime_iff_covered, distinct, ?_⟩,
    primesByTables_eq fits below⟩
  refine (distinct.and (pairwise_primes rows width)).imp ?_
  rintro a b ⟨differ, before⟩
  have strict : sizeOrder a b = .lt := by
    cases order : sizeOrder a b with
    | lt => rfl
    | eq => exact absurd (eq_of_sizeOrder order) differ
    | gt => rw [order] at before; cases before
  rwa [sizeOrder, Ordering.then_eq_lt, Nat.compare_eq_lt, Nat.compare_eq_eq] at strict

/-- Six rows in a ring, in no order and one of them twice: all unions of neighbours are prime. -/
theorem listsPrimes_primes_ring :
    3 ≤ maxWidth ∧ (∀ row ∈ [7, 0, 1, 2, 5, 6, 1], row < 2 ^ 3) ∧
      ListsPrimes [7, 0, 1, 2, 5, 6, 1] 3 (primes [7, 0, 1, 2, 5, 6, 1] 3) ∧
      primesByTables [7, 0, 1, 2, 5, 6, 1] 3 = primes [7, 0, 1, 2, 5, 6, 1] 3 := by
  have fits : 3 ≤ maxWidth := by decide
  have below : ∀ row ∈ [7, 0, 1, 2, 5, 6, 1], row < 2 ^ 3 := by decide
  exact ⟨fits, below, listsPrimes_primes fits below⟩

end SwitchingLogic.Implicant
