import Mathlib.Data.List.Induction
import SwitchingLogic.Proofs.Implicant.Chart

/-!
# Rounds on charts

The sums of the rows count each place as often as its cube covers a row, so that a round on the
product of sums takes the place that a greedy round takes and leaves the sums of the same rows.
The two procedures run in step: they start with the essential cubes, take the same places one after
the other, each of which covers a row that was not covered before, and end when nothing more can be
covered.
-/

namespace SwitchingLogic.Chart

open Implicant

theorem foldl_max_map_scale {α β : Type} (name : α → β) (k : Nat) (counted : List (α × Nat))
    (start : Nat) :
    (counted.map fun p => (name p.1, k * p.2)).foldl (fun top (_, count) => max top count)
        (k * start) = k * counted.foldl (fun top (_, count) => max top count) start := by
  induction counted generalizing start with
  | nil => rfl
  | cons first rest ih =>
      rw [List.map_cons, List.foldl_cons, List.foldl_cons, ← ih]
      exact congrArg (List.foldl _ · _) (Nat.mul_max_mul_left k start first.2)

/-- The leader does not change when the items are renamed and all counts grow by one factor. -/
theorem leader?_map_scale {α β : Type} (name : α → β) {k : Nat} (positive : 0 < k)
    (counted : List (α × Nat)) :
    leader? (counted.map fun p => (name p.1, k * p.2)) = (leader? counted).map name := by
  have whole := foldl_max_map_scale name k counted 0
  rw [Nat.mul_zero] at whole
  rw [leader?, leader?, whole, List.find?_map, Option.map_map, Option.map_map]
  congr 1
  refine congrArg (List.find? · counted) (funext fun p => ?_)
  rw [Function.comp_apply, Bool.eq_iff_iff]
  simp [positive, Nat.mul_left_cancel_iff positive]

theorem nodup_covering (c : Chart) (row : Nat) : (c.covering row).Nodup := by
  have places : (c.primes.zipIdx.map Prod.snd).Nodup := by
    rw [List.zipIdx_map_snd]
    exact List.nodup_range'
  exact places.sublist (List.filter_sublist.map _)

theorem mem_covering_iff {c : Chart} {place : Nat} {p : Implicant}
    (found : c.primes[place]? = some p) (row : Nat) :
    place ∈ c.covering row ↔ p.covers row = true := by
  rw [mem_covering, found]
  simp

theorem count_flatten_covering (c : Chart) (rows : List Nat) {place : Nat} {p : Implicant}
    (found : c.primes[place]? = some p) :
    (rows.map c.covering).flatten.count place = rows.countP p.covers := by
  induction rows with
  | nil => rfl
  | cons row rest ih =>
      rw [List.map_cons, List.flatten_cons, List.count_append, ih, List.countP_cons,
        (c.nodup_covering row).count, Nat.add_comm]
      simp only [mem_covering_iff found]

/-- The sums of the rows count each place as often as its cube covers a row. -/
theorem frequencies_map_covering (c : Chart) (rows : List Nat) :
    frequencies c.primes.length (rows.map c.covering) =
      (coverCounts c.primes rows).map fun p => (p.1.2, p.2) := by
  have size : (tally c.primes.length (rows.map c.covering).flatten).size = c.primes.length := by
    rw [tally, size_foldl_modify, Array.size_replicate]
  refine List.ext_getElem (by simp [frequencies, coverCounts, size]) fun place inside _ => ?_
  have low : place < c.primes.length := by simpa [frequencies, size] using inside
  have counted := c.count_flatten_covering rows (List.getElem?_eq_getElem low)
  simp [frequencies, coverCounts, getElem_tally, counted]

theorem sumsWithout_map_covering (c : Chart) (rows : List Nat) {place : Nat} {p : Implicant}
    (found : c.primes[place]? = some p) :
    sumsWithout place (rows.map c.covering) = (rowsOutside p rows).map c.covering := by
  rw [sumsWithout, rowsOutside, List.filter_map]
  refine congrArg (List.map c.covering) (List.filter_congr fun row _ => ?_)
  apply congrArg (!·)
  exact Bool.eq_iff_iff.mpr (List.contains_iff_mem.trans (mem_covering_iff found row))

/-- Choosing places of sums is choosing cubes for rows. -/
theorem petrickFrom_map_covering (c : Chart) (rows : List Nat) :
    petrickFrom c.primes.length (rows.map c.covering) = greedyFrom c.primes rows := by
  have leader (rows : List Nat) : leader? (frequencies c.primes.length (rows.map c.covering)) =
      (leader? (coverCounts c.primes rows)).map Prod.snd := by
    have renamed := leader?_map_scale Prod.snd Nat.one_pos (coverCounts c.primes rows)
    simp only [Nat.one_mul] at renamed
    rw [frequencies_map_covering, renamed]
  induction rows using greedyFrom.induct c.primes with
  | case1 rows none' =>
      have same := leader rows
      rw [none', Option.map_none] at same
      rw [greedyFrom_of_none none', petrickFrom_of_none same]
  | case2 rows p place found ih =>
      have same := leader rows
      rw [found, Option.map_some] at same
      obtain ⟨_, counted, _⟩ := exists_count_of_leader? found
      rw [greedyFrom_of_leader? found, petrickFrom_of_leader? same,
        c.sumsWithout_map_covering rows (mem_coverCounts.mp counted).1, ih]

/-! ## Essential cubes -/

theorem mem_essentials {c : Chart} {place : Nat} :
    place ∈ c.essentials ↔ ∃ row ∈ c.rows, c.covering row = [place] := by
  have only (places : List Nat) : onlyChoice? places = some place ↔ places = [place] := by
    unfold onlyChoice?
    split
    · simp
    · rename_i other
      refine iff_of_false (fun none => nomatch none) fun single => other place single
  rw [essentials, mem_distinctRows, List.mem_filterMap]
  simp only [sums, List.mem_map, only]
  constructor
  · rintro ⟨_, ⟨row, member, rfl⟩, single⟩
    exact ⟨row, member, single⟩
  · rintro ⟨row, member, single⟩
    exact ⟨_, ⟨row, member, rfl⟩, single⟩

def IsEssential (c : Chart) (place : Nat) : Prop :=
  ∃ row ∈ c.rows, ∀ other, other ∈ c.covering row ↔ other = place

theorem mem_essentials_iff {c : Chart} {place : Nat} :
    place ∈ c.essentials ↔ c.IsEssential place := by
  rw [mem_essentials]
  refine exists_congr fun row => and_congr_right fun _ => ?_
  constructor
  · intro single other
    rw [single, List.mem_singleton]
  · intro only
    refine List.perm_singleton.mp ((List.perm_ext_iff_of_nodup (c.nodup_covering row)
      (List.nodup_singleton place)).mpr fun other => ?_)
    rw [only, List.mem_singleton]

/-- The places in sums without a choice, in the order of the rows. -/
def forced (c : Chart) : List Nat := ((c.sums.map (·.2)).filterMap onlyChoice?).eraseDups

theorem forced_perm (c : Chart) : c.forced.Perm c.essentials := by
  refine (List.perm_ext_iff_of_nodup (nodup_eraseDups _) (nodup_distinctRows _)).mpr fun place => ?_
  rw [List.mem_eraseDups, mem_distinctRows, List.filterMap_map]
  rfl

theorem any_select_iff {c : Chart} {places : List Nat} {row : Nat} :
    (c.select places).any (fun p => p.covers row) = true ↔
      ∃ place ∈ places, place ∈ c.covering row := by
  simp only [List.any_eq_true, mem_select, mem_covering]
  constructor
  · rintro ⟨p, ⟨place, chosen, found⟩, covered⟩
    exact ⟨place, chosen, p, found, covered⟩
  · rintro ⟨place, chosen, p, found, covered⟩
    exact ⟨p, ⟨place, chosen, found⟩, covered⟩

/-- A row is left when none of the cubes that cover it is forced. -/
theorem filter_sums (c : Chart) :
    (c.sums.map (·.2)).filter (fun s => !s.any c.forced.contains) =
      (c.uncoveredBy c.essentials).map c.covering := by
  have listed : c.sums.map (·.2) = c.rows.map c.covering := by
    rw [sums, List.map_map]
    rfl
  rw [uncoveredBy, listed, List.filter_map]
  refine congrArg (List.map c.covering) (List.filter_congr fun row _ => ?_)
  refine congrArg (!·) (Bool.eq_iff_iff.mpr ?_)
  rw [any_select_iff, List.any_eq_true]
  simp only [List.contains_iff_mem, c.forced_perm.mem_iff, and_comm]

/-- The places that the greedy procedure takes after the essential ones. -/
def further (c : Chart) : List Nat := greedyFrom c.primes (c.uncoveredBy c.essentials)

def petrickOrder (c : Chart) : List Nat :=
  c.forced ++ petrickFrom c.primes.length
    ((c.sums.map (·.2)).filter fun s => !s.any c.forced.contains)

/-- After the essential cubes the two procedures make the same choices. -/
theorem petrickOrder_eq (c : Chart) : c.petrickOrder = c.forced ++ c.further := by
  rw [petrickOrder, filter_sums, petrickFrom_map_covering, further]

/-- The procedure on the product of sums makes the greedy choices and puts them in order. -/
theorem petrickCover_eq (c : Chart) : c.petrickCover = c.greedyCover.mergeSort := by
  have ordered : c.petrickCover = c.petrickOrder.mergeSort := rfl
  rw [ordered, petrickOrder_eq]
  exact mergeSort_eq_of_perm (c.forced_perm.append_right _)

theorem petrickCover_perm (c : Chart) : c.petrickCover.Perm c.greedyCover :=
  c.petrickCover_eq ▸ List.mergeSort_perm _ _

/-- The cover from the product of sums covers all that the chart can cover. -/
theorem exists_mem_select_petrickCover (c : Chart) {row : Nat} (member : row ∈ c.rows)
    (coverable : ∃ p ∈ c.primes, p.covers row = true) :
    ∃ p ∈ c.select c.petrickCover, p.covers row = true := by
  obtain ⟨p, selected, covered⟩ := c.exists_mem_select_greedyCover member coverable
  obtain ⟨place, chosen, found⟩ := mem_select.mp selected
  exact ⟨p, mem_select.mpr ⟨place, c.petrickCover_perm.mem_iff.mpr chosen, found⟩, covered⟩

/-! ## Progress -/

/-- Each further place covers a row that no place before it covers. -/
def Progresses (c : Chart) (first later : List Nat) : Prop :=
  ∀ before place behind, later = before ++ place :: behind →
    ∃ row ∈ c.rows, place ∈ c.covering row ∧ ∀ other ∈ first ++ before, other ∉ c.covering row

/-- A round takes a cube for a row that is left, and leaves the rows outside that cube. -/
theorem exists_row_of_greedyFrom (c : Chart) (rows : List Nat) {before behind : List Nat}
    {place : Nat} (taken : greedyFrom c.primes rows = before ++ place :: behind) :
    ∃ row ∈ rows, place ∈ c.covering row ∧ ∀ other ∈ before, other ∉ c.covering row := by
  induction rows using greedyFrom.induct c.primes generalizing before with
  | case1 rows none' =>
      rw [greedyFrom_of_none none'] at taken
      cases before <;> cases taken
  | case2 rows p leader found ih =>
      rw [greedyFrom_of_leader? found] at taken
      obtain ⟨count, counted, positive⟩ := exists_count_of_leader? found
      obtain ⟨listed, rfl⟩ := mem_coverCounts.mp counted
      cases before with
      | nil =>
          obtain ⟨rfl, _⟩ := List.cons.inj taken
          obtain ⟨row, member, covered⟩ := List.countP_pos_iff.mp positive
          exact ⟨row, member, (mem_covering_iff listed row).mpr covered,
            fun _ none => (List.not_mem_nil none).elim⟩
      | cons first before =>
          obtain ⟨rfl, rest⟩ := List.cons.inj taken
          obtain ⟨row, left, covered, new⟩ := ih rest
          obtain ⟨member, outside⟩ := List.mem_filter.mp left
          refine ⟨row, member, covered, fun other earlier => ?_⟩
          rcases List.mem_cons.mp earlier with rfl | earlier
          · intro covers
            rw [(mem_covering_iff listed row).mp covers] at outside
            cases outside
          · exact new other earlier

theorem mem_uncoveredBy {c : Chart} {places : List Nat} {row : Nat} :
    row ∈ c.uncoveredBy places ↔ row ∈ c.rows ∧ ∀ place ∈ places, place ∉ c.covering row := by
  rw [uncoveredBy, List.mem_filter, Bool.not_eq_true', ← Bool.not_eq_true, any_select_iff]
  simp only [not_exists, not_and]

theorem progresses_further (c : Chart) : c.Progresses c.essentials c.further := by
  intro before place behind taken
  obtain ⟨row, left, covered, new⟩ := c.exists_row_of_greedyFrom _ taken
  obtain ⟨member, outside⟩ := mem_uncoveredBy.mp left
  refine ⟨row, member, covered, fun other earlier => ?_⟩
  rcases List.mem_append.mp earlier with essential | taken
  · exact outside other essential
  · exact new other taken

/-- Progress does not allow repetitions. -/
theorem Progresses.nodup {c : Chart} {first later : List Nat} (distinct : first.Nodup)
    (progress : c.Progresses first later) : (first ++ later).Nodup := by
  induction later using List.reverseRecOn with
  | nil => rwa [List.append_nil]
  | append_singleton later place ih =>
      have shorter : (first ++ later).Nodup := by
        refine ih fun before place' behind split => ?_
        apply progress before place' (behind ++ [place])
        rw [split, List.append_assoc, List.cons_append]
      obtain ⟨row, _, covered, new⟩ := progress later place [] rfl
      rw [← List.append_assoc]
      refine shorter.append (List.nodup_singleton place) fun other earlier here => ?_
      cases List.mem_singleton.mp here
      exact new place earlier covered

/-! ## Runs of the procedures -/

/-- A run starts with the essential cubes in some order, goes on with cubes each of which covers a
row that none before it covers, and covers in the end what the chart can cover. -/
structure IsRun (c : Chart) (first later : List Nat) : Prop where
  essential : ∀ place, place ∈ first ↔ c.IsEssential place
  progress : c.Progresses first later
  distinct : (first ++ later).Nodup
  inside : ∀ place ∈ first ++ later, place < c.primes.length
  complete : ∀ row ∈ c.rows, (∃ p ∈ c.primes, p.covers row = true) →
    ∃ place ∈ first ++ later, place ∈ c.covering row

theorem lt_of_mem_covering {c : Chart} {row place : Nat} (covered : place ∈ c.covering row) :
    place < c.primes.length := by
  obtain ⟨p, found, _⟩ := mem_covering.mp covered
  exact (List.getElem?_eq_some_iff.mp found).1

theorem isRun_greedy (c : Chart) : c.IsRun c.essentials c.further where
  essential _ := mem_essentials_iff
  progress := c.progresses_further
  distinct := c.progresses_further.nodup (nodup_distinctRows _)
  inside place chosen := by
    rcases List.mem_append.mp chosen with essential | taken
    · obtain ⟨row, _, only⟩ := mem_essentials_iff.mp essential
      exact lt_of_mem_covering ((only place).mpr rfl)
    · obtain ⟨before, behind, split⟩ := List.append_of_mem taken
      obtain ⟨row, _, covered, _⟩ := c.progresses_further before place behind split
      exact lt_of_mem_covering covered
  complete row member coverable := by
    obtain ⟨p, selected, covered⟩ := c.exists_mem_select_greedyCover member coverable
    exact any_select_iff.mp (List.any_eq_true.mpr ⟨p, selected, covered⟩)

/-- The order of the essential cubes does not matter. -/
theorem IsRun.perm {c : Chart} {first first' later : List Nat} (run : c.IsRun first later)
    (same : first'.Perm first) : c.IsRun first' later := by
  have whole : (first' ++ later).Perm (first ++ later) := same.append_right later
  refine ⟨fun place => same.mem_iff.trans (run.essential place), ?_,
    whole.nodup_iff.mpr run.distinct, fun place chosen => ?_, fun row member coverable => ?_⟩
  · intro before place behind split
    obtain ⟨row, member, covered, new⟩ := run.progress before place behind split
    exact ⟨row, member, covered, fun other earlier =>
      new other ((same.append_right before).mem_iff.mp earlier)⟩
  · exact run.inside place (whole.mem_iff.mp chosen)
  · obtain ⟨place, chosen, covered⟩ := run.complete row member coverable
    exact ⟨place, whole.mem_iff.mpr chosen, covered⟩

/-- The two procedures run in step.  They list the same places without repetitions, the one on the
product of sums in order. -/
structure InStep (c : Chart) : Prop where
  greedy : c.greedyCover = c.essentials ++ c.further ∧ c.IsRun c.essentials c.further
  petrick : c.petrickOrder = c.forced ++ c.further ∧ c.IsRun c.forced c.further
  sorted : c.petrickCover = c.petrickOrder.mergeSort ∧ c.petrickCover = c.greedyCover.mergeSort
  same : c.petrickCover.Perm c.greedyCover
  increasing : c.petrickCover.Pairwise (· < ·)

theorem inStep (c : Chart) : c.InStep := by
  have run := c.isRun_greedy
  have sorted := c.petrickCover_eq
  have same := c.petrickCover_perm
  have distinct : c.petrickCover.Nodup := same.nodup_iff.mpr run.distinct
  have ascending : c.petrickCover.Pairwise (· ≤ ·) := sorted ▸ pairwise_mergeSort_le _
  exact ⟨⟨rfl, run⟩, ⟨c.petrickOrder_eq, run.perm c.forced_perm⟩, ⟨rfl, sorted⟩, same,
    ascending.imp₂ (fun _ _ => lt_of_le_of_ne) distinct⟩

end SwitchingLogic.Chart
