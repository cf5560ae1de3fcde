import SwitchingLogic.Implicant.Prime

/-!
# Covering charts

A chart shows which of the listed cubes cover each of a set of rows.  A cover is a choice of cubes
that leaves no row uncovered.  Two procedures choose one: the greedy one works on the rows that
are still uncovered, the other one on the product of sums that states, for each row, which cubes
would cover it.
-/

namespace SwitchingLogic

/-- Cubes and the rows to cover, which are in order and without repetitions. -/
structure Chart where
  primes : List Implicant
  rows : List Nat

namespace Chart

def ofPrimes (primes : List Implicant) (rows : List Nat) : Chart :=
  ⟨primes, Implicant.distinctRows rows⟩

def ofRows (rows : List Nat) (width : Nat) : Chart :=
  ofPrimes (Implicant.primes rows width) rows

/-- The places of the cubes that cover a row. -/
def covering (c : Chart) (row : Nat) : List Nat :=
  (c.primes.zipIdx.filter fun (p, _) => p.covers row).map (·.2)

def sums (c : Chart) : List (Nat × List Nat) :=
  c.rows.map fun row => (row, c.covering row)

/-- The place in a sum that offers no choice. -/
def onlyChoice? : List Nat → Option Nat
  | [place] => some place
  | _ => none

/-- The places of the cubes that alone cover some row, in order. -/
def essentials (c : Chart) : List Nat :=
  Implicant.distinctRows (c.sums.filterMap fun (_, places) => onlyChoice? places)

def select (c : Chart) (places : List Nat) : List Implicant :=
  places.filterMap (c.primes[·]?)

/-- The first item with the greatest count, unless all counts are zero. -/
def leader? {α : Type} (counted : List (α × Nat)) : Option α :=
  let top := counted.foldl (fun top (_, count) => max top count) 0
  (counted.find? fun (_, count) => 0 < count && count == top).map (·.1)

/-- The leader has been counted at least once. -/
theorem exists_count_of_leader? {α : Type} {counted : List (α × Nat)} {a : α}
    (h : leader? counted = some a) : ∃ count, (a, count) ∈ counted ∧ 0 < count := by
  obtain ⟨⟨b, count⟩, found, rfl⟩ := Option.map_eq_some_iff.1 h
  refine ⟨count, List.mem_of_find?_eq_some found, ?_⟩
  have holds := List.find?_some found
  simp only [Bool.and_eq_true, decide_eq_true_eq] at holds
  exact holds.1

def coverCounts (primes : List Implicant) (rows : List Nat) : List ((Implicant × Nat) × Nat) :=
  primes.zipIdx.map fun p => (p, rows.countP p.1.covers)

def rowsOutside (p : Implicant) (rows : List Nat) : List Nat :=
  rows.filter fun row => !p.covers row

/-- Choose the cube that covers most of the rows, the first one of several, until no cube covers
any of the rows left. -/
def greedyFrom (primes : List Implicant) (rows : List Nat) : List Nat :=
  match _h : leader? (coverCounts primes rows) with
  | none => []
  | some (p, place) => place :: greedyFrom primes (rowsOutside p rows)
termination_by rows.length
decreasing_by
  obtain ⟨count, listed, positive⟩ := exists_count_of_leader? _h
  obtain ⟨q, _, same⟩ := List.mem_map.1 listed
  obtain ⟨rfl, rfl⟩ := Prod.mk.inj same
  obtain ⟨row, mem, covers⟩ := List.countP_pos_iff.1 positive
  refine List.length_filter_lt_length_iff_exists.2 ⟨row, mem, ?_⟩
  simpa using covers

def uncoveredBy (c : Chart) (places : List Nat) : List Nat :=
  let chosen := c.select places
  c.rows.filter fun row => !chosen.any fun p => p.covers row

/-- The greedy cover: the essential cubes, and then the best cube for the rows left, one at a
time. -/
def greedyCover (c : Chart) : List Nat :=
  let essentials := c.essentials
  essentials ++ greedyFrom c.primes (c.uncoveredBy essentials)

/-- How often each place below `size` occurs in a list of places. -/
def tally (size : Nat) (places : List Nat) : Array Nat :=
  places.foldl (fun counts place => counts.modify place (· + 1)) (Array.replicate size 0)

/-- Counting keeps the number of places. -/
theorem size_foldl_modify (places : List Nat) (counts : Array Nat) :
    (places.foldl (fun counts place => counts.modify place (· + 1)) counts).size =
      counts.size := by
  induction places generalizing counts with
  | nil => rfl
  | cons place rest ih => simp [ih]

/-- Counting adds the number of occurrences to each place. -/
theorem getElem_foldl_modify (places : List Nat) (counts : Array Nat) (i : Nat)
    (hi : i < counts.size)
    (hj : i < (places.foldl (fun counts place => counts.modify place (· + 1)) counts).size) :
    (places.foldl (fun counts place => counts.modify place (· + 1)) counts)[i] =
      counts[i] + places.count i := by
  induction places generalizing counts with
  | nil => simp
  | cons place rest ih =>
      simp only [List.foldl_cons]
      rw [ih (counts.modify place (· + 1)) (by simpa using hi), Array.getElem_modify,
        List.count_cons]
      by_cases same : place = i
      · simp [same]; omega
      · simp [same]

/-- A tally holds the number of occurrences of each place. -/
theorem getElem_tally (size : Nat) (places : List Nat) (i : Nat)
    (hi : i < (tally size places).size) : (tally size places)[i] = places.count i := by
  have inside : i < size := by simpa [tally, size_foldl_modify] using hi
  have counted :=
    getElem_foldl_modify places (Array.replicate size 0) i (by simpa using inside) hi
  rw [Array.getElem_replicate, Nat.zero_add] at counted
  exact counted

def frequencies (size : Nat) (sums : List (List Nat)) : List (Nat × Nat) :=
  (tally size sums.flatten).toList.zipIdx.map fun (count, place) => (place, count)

/-- A place that occurs at all occurs in some sum. -/
theorem exists_sum_of_frequency {size : Nat} {sums : List (List Nat)} {place count : Nat}
    (h : (place, count) ∈ frequencies size sums) (positive : 0 < count) :
    ∃ s ∈ sums, place ∈ s := by
  obtain ⟨⟨n, i⟩, mem, same⟩ := List.mem_map.1 h
  obtain ⟨rfl, rfl⟩ := Prod.mk.inj same
  obtain ⟨inside, value⟩ := List.mk_mem_zipIdx_iff_getElem?.1 mem |> List.getElem?_eq_some_iff.1
  have counted : n = sums.flatten.count i := by
    rw [← value, Array.getElem_toList, getElem_tally]
  have occurs : i ∈ sums.flatten := List.count_pos_iff.1 (counted ▸ positive)
  obtain ⟨s, mem, inner⟩ := List.mem_flatten.1 occurs
  exact ⟨s, mem, inner⟩

def sumsWithout (place : Nat) (sums : List (List Nat)) : List (List Nat) :=
  sums.filter fun s => !s.contains place

/-- Choose the place that occurs in most sums, the first one of several, until every sum that can
be satisfied is. -/
def petrickFrom (size : Nat) (sums : List (List Nat)) : List Nat :=
  match _h : leader? (frequencies size sums) with
  | none => []
  | some place => place :: petrickFrom size (sumsWithout place sums)
termination_by sums.length
decreasing_by
  obtain ⟨count, listed, positive⟩ := exists_count_of_leader? _h
  obtain ⟨s, mem, occurs⟩ := exists_sum_of_frequency listed positive
  refine List.length_filter_lt_length_iff_exists.2 ⟨s, mem, ?_⟩
  simpa using occurs

/-- The cover that resolves the product of sums: sums without a choice first, and then the place
that satisfies most of the sums left, one at a time.  The places are in order. -/
def petrickCover (c : Chart) : List Nat :=
  let sums := c.sums.map (·.2)
  let chosen := (sums.filterMap onlyChoice?).eraseDups
  let rest := sums.filter fun s => !s.any chosen.contains
  (chosen ++ petrickFrom c.primes.length rest).mergeSort

end Chart

end SwitchingLogic
