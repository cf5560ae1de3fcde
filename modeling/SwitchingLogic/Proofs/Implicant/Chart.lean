import Mathlib.Order.MinMax
import SwitchingLogic.Implicant.Chart
import SwitchingLogic.Proofs.Implicant.Prime
import SwitchingLogic.Proofs.Lists.Distinct

/-!
# Covers chosen from charts

The greedy procedure leaves no row uncovered that some cube of the chart covers.  A round takes a
leader; what the leader covers is done with, the other rows are still there in the next round, and
without a leader nothing can be covered any more.
-/

namespace SwitchingLogic

theorem Implicant.mem_distinctRows {rows : List Nat} {row : Nat} :
    row ∈ distinctRows rows ↔ row ∈ rows := by
  rw [distinctRows, List.mem_mergeSort, Std.HashSet.mem_toList, Std.HashSet.mem_ofList,
    List.contains_iff_mem]

theorem Implicant.distinctRows_nil : distinctRows [] = [] :=
  List.eq_nil_iff_forall_not_mem.mpr fun _ listed => List.not_mem_nil (mem_distinctRows.mp listed)

theorem Implicant.nodup_distinctRows (rows : List Nat) : (distinctRows rows).Nodup :=
  (List.mergeSort_perm _ _).nodup_iff.mpr (nodup_hashSet_toList _)

theorem Implicant.pairwise_distinctRows (rows : List Nat) :
    (distinctRows rows).Pairwise (· < ·) :=
  (pairwise_mergeSort_le _).imp₂ (fun _ _ => lt_of_le_of_ne) (nodup_distinctRows rows)

theorem Implicant.distinctRows_congr {xs ys : List Nat} (same : ∀ x, x ∈ xs ↔ x ∈ ys) :
    distinctRows xs = distinctRows ys := by
  refine mergeSort_eq_of_perm
    ((List.perm_ext_iff_of_nodup (nodup_hashSet_toList _) (nodup_hashSet_toList _)).mpr fun x => ?_)
  rw [Std.HashSet.mem_toList, Std.HashSet.mem_ofList, Std.HashSet.mem_toList,
    Std.HashSet.mem_ofList, List.contains_iff_mem, List.contains_iff_mem, same]

namespace Chart

/-- The greatest count bounds all counts, and it is attained unless it is the start. -/
theorem foldl_max_spec {α : Type} (counted : List (α × Nat)) (start : Nat) :
    start ≤ counted.foldl (fun top (_, count) => max top count) start ∧
      (∀ p ∈ counted, p.2 ≤ counted.foldl (fun top (_, count) => max top count) start) ∧
      (counted.foldl (fun top (_, count) => max top count) start = start ∨
        ∃ p ∈ counted, p.2 = counted.foldl (fun top (_, count) => max top count) start) := by
  induction counted generalizing start with
  | nil => exact ⟨le_rfl, fun p member => (List.not_mem_nil member).elim, Or.inl rfl⟩
  | cons first rest ih =>
      rw [List.foldl_cons]
      obtain ⟨above, bound, attained⟩ := ih (max start first.2)
      refine ⟨(le_max_left _ _).trans above, fun p member => ?_, ?_⟩
      · rcases List.mem_cons.mp member with rfl | member
        · exact (le_max_right _ _).trans above
        · exact bound p member
      · rcases attained with same | ⟨p, member, top⟩
        · rcases max_choice start first.2 with chosen | chosen
          · exact Or.inl (same.trans chosen)
          · exact Or.inr ⟨first, List.mem_cons_self, (same.trans chosen).symm⟩
        · exact Or.inr ⟨p, List.mem_cons_of_mem _ member, top⟩

/-- There is no leader when all counts are zero, and only then. -/
theorem leader?_eq_none_iff {α : Type} {counted : List (α × Nat)} :
    leader? counted = none ↔ ∀ p ∈ counted, p.2 = 0 := by
  obtain ⟨_, bound, attained⟩ := foldl_max_spec counted 0
  rw [leader?, Option.map_eq_none_iff, List.find?_eq_none]
  simp only [Bool.and_eq_true, decide_eq_true_eq, beq_iff_eq, not_and]
  constructor
  · intro none p member
    by_contra positive
    have below := bound p member
    rcases attained with zero | ⟨best, listed, top⟩
    · omega
    · exact none best listed (by omega) top
  · intro zero p member positive
    exact absurd (zero p member) (Nat.pos_iff_ne_zero.mp positive)

theorem mem_coverCounts {primes : List Implicant} {rows : List Nat} {p : Implicant}
    {place count : Nat} :
    ((p, place), count) ∈ coverCounts primes rows ↔
      primes[place]? = some p ∧ rows.countP p.covers = count := by
  rw [coverCounts, List.mem_map]
  constructor
  · rintro ⟨⟨q, other⟩, member, same⟩
    cases same
    exact ⟨List.mk_mem_zipIdx_iff_getElem?.mp member, rfl⟩
  · rintro ⟨found, rfl⟩
    exact ⟨(p, place), List.mk_mem_zipIdx_iff_getElem?.mpr found, rfl⟩

theorem mem_select {c : Chart} {places : List Nat} {p : Implicant} :
    p ∈ c.select places ↔ ∃ place ∈ places, c.primes[place]? = some p :=
  List.mem_filterMap

theorem greedyFrom_of_leader? {primes : List Implicant} {rows : List Nat} {p : Implicant}
    {place : Nat}
    (found : leader? (coverCounts primes rows) = some (p, place)) :
    greedyFrom primes rows = place :: greedyFrom primes (rowsOutside p rows) := by
  rw [greedyFrom]
  split
  · rename_i none
    cases found.symm.trans none
  · rename_i again
    cases Option.some.inj (found.symm.trans again)
    rfl

theorem greedyFrom_of_none {primes : List Implicant} {rows : List Nat}
    (none' : leader? (coverCounts primes rows) = none) :
    greedyFrom primes rows = [] := by
  rw [greedyFrom]
  split
  · rfl
  · rename_i found
    cases found.symm.trans none'

/-- Each row that some cube covers is covered by a cube that a round takes. -/
theorem exists_mem_greedyFrom (primes : List Implicant) (rows : List Nat) {row : Nat}
    (member : row ∈ rows) (coverable : ∃ p ∈ primes, p.covers row = true) :
    ∃ place ∈ greedyFrom primes rows, ∃ p, primes[place]? = some p ∧ p.covers row = true := by
  induction rows using greedyFrom.induct primes with
  | case1 rows none =>
      obtain ⟨p, listed, covered⟩ := coverable
      obtain ⟨place, inside, rfl⟩ := List.getElem_of_mem listed
      have zero := leader?_eq_none_iff.mp none _
        (mem_coverCounts.mpr ⟨List.getElem?_eq_getElem inside, rfl⟩)
      exact absurd covered (List.countP_eq_zero.mp zero row member)
  | case2 rows p place found ih =>
      rw [greedyFrom_of_leader? found]
      by_cases covered : p.covers row = true
      · obtain ⟨count, listed, _⟩ := exists_count_of_leader? found
        exact ⟨place, List.mem_cons_self, p, (mem_coverCounts.mp listed).1, covered⟩
      · have outside : row ∈ rowsOutside p rows :=
          List.mem_filter.mpr ⟨member, by simpa using covered⟩
        obtain ⟨later, taken, rest⟩ := ih outside
        exact ⟨later, List.mem_cons_of_mem _ taken, rest⟩

/-- The greedy cover covers all that the chart can cover. -/
theorem exists_mem_select_greedyCover (c : Chart) {row : Nat} (member : row ∈ c.rows)
    (coverable : ∃ p ∈ c.primes, p.covers row = true) :
    ∃ p ∈ c.select c.greedyCover, p.covers row = true := by
  by_cases done : ∃ p ∈ c.select c.essentials, p.covers row = true
  · obtain ⟨p, selected, covered⟩ := done
    obtain ⟨place, essential, found⟩ := mem_select.mp selected
    exact ⟨p, mem_select.mpr ⟨place, List.mem_append_left _ essential, found⟩, covered⟩
  · have left : row ∈ c.uncoveredBy c.essentials := by
      refine List.mem_filter.mpr ⟨member, ?_⟩
      rw [Bool.not_eq_true', List.any_eq_false]
      exact fun p selected covered => done ⟨p, selected, covered⟩
    obtain ⟨place, taken, p, found, covered⟩ := exists_mem_greedyFrom c.primes _ left coverable
    exact ⟨p, mem_select.mpr ⟨place, List.mem_append_right _ taken, found⟩, covered⟩

theorem mem_covering {c : Chart} {row place : Nat} :
    place ∈ c.covering row ↔ ∃ p, c.primes[place]? = some p ∧ p.covers row = true := by
  simp only [covering, List.mem_map, List.mem_filter, Prod.exists,
    List.mk_mem_zipIdx_iff_getElem?]
  constructor
  · rintro ⟨p, other, both, rfl⟩
    exact ⟨p, both⟩
  · rintro ⟨p, both⟩
    exact ⟨p, place, both, rfl⟩

theorem petrickFrom_of_leader? {size : Nat} {sums : List (List Nat)} {place : Nat}
    (found : leader? (frequencies size sums) = some place) :
    petrickFrom size sums = place :: petrickFrom size (sumsWithout place sums) := by
  rw [petrickFrom]
  split
  · rename_i none
    cases found.symm.trans none
  · rename_i again
    cases Option.some.inj (found.symm.trans again)
    rfl

theorem petrickFrom_of_none {size : Nat} {sums : List (List Nat)}
    (none' : leader? (frequencies size sums) = none) : petrickFrom size sums = [] := by
  rw [petrickFrom]
  split
  · rfl
  · rename_i found
    cases found.symm.trans none'

/-- Only cubes of the chart are selected. -/
theorem mem_primes_of_mem_select {c : Chart} {places : List Nat} {p : Implicant}
    (selected : p ∈ c.select places) : p ∈ c.primes := by
  obtain ⟨place, _, found⟩ := mem_select.mp selected
  exact List.mem_of_getElem? found

/-- Places of the chart of a set of rows make a cover if they cover all that can be covered. -/
theorem isCover_select {rows : List Nat} {width : Nat} (fits : width ≤ Implicant.maxWidth)
    (below : ∀ row ∈ rows, row < 2 ^ width) {places : List Nat}
    (complete : ∀ row ∈ (ofRows rows width).rows,
      (∃ p ∈ (ofRows rows width).primes, p.covers row = true) →
        ∃ p ∈ (ofRows rows width).select places, p.covers row = true) :
    Implicant.IsCover rows width ((ofRows rows width).select places) where
  implicants _ selected :=
    ((Implicant.mem_primes fits below).mp (mem_primes_of_mem_select selected)).isImplicant
  covering row member :=
    complete row (Implicant.mem_distinctRows.mpr member)
      (Implicant.exists_mem_primes fits below member)

end Chart

end SwitchingLogic
