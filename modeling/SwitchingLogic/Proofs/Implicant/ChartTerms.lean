import SwitchingLogic.Proofs.Implicant.ChartRounds
import SwitchingLogic.Proofs.Implicant.PrimeTerms

/-!
# Charts of a function

The numbers of rows that the primes of a chart cover grow by one factor when variables are added on
which the function does not depend, so that each round has the same leader.  All charts of a
function therefore choose the same places.
-/

namespace SwitchingLogic

open Implicant

variable {f : State → Bool} {vs us : List Variable} {rows rows' : List Nat}

theorem IsTable.distinctRows (table : IsTable f vs rows) :
    IsTable f vs (Implicant.distinctRows rows) :=
  ⟨table.ordered, table.fits, table.depends, fun row =>
    mem_distinctRows.trans (table.mem_rows row)⟩

namespace Chart

variable {primes primes' : List Implicant}

/-- The states of a function that lie in none of the terms. -/
theorem isTable_filter (table : IsTable f vs rows) {cubes : List Implicant}
    (stands : ∀ a ∈ cubes, a.Over vs) :
    IsTable (fun s => f s && !(cubes.map (·.toTerm vs)).any (·.containsState s)) vs
      (rows.filter fun row => !cubes.any (·.covers row)) := by
  have any := any_containsState_map stands table.nodup
  refine ⟨table.ordered, table.fits, fun s t same => ?_, fun row => ?_⟩
  · rw [any, any, table.depends s t same, State.toIndex_congr same]
  · rw [List.mem_filter, table.mem_rows, and_assoc]
    refine and_congr_right fun low => ?_
    rw [Bool.and_eq_true, any, State.toIndex_ofIndex table.nodup table.short low]

/-- The number of rows that a cube covers is a share of all rows which does not depend on the
variables of the table. -/
theorem exists_count_covers (ordered : State.IsOrdered vs) :
    ∃ k, 0 < k ∧ ∀ (f : State → Bool) (rows : List Nat) (a : Implicant), IsTable f vs rows →
      rows.Nodup → a.Over vs →
        State.count Variable.all (fun s => f s && (a.toTerm vs).containsState s) =
          k * rows.countP a.covers := by
  obtain ⟨k, positive, scaled⟩ := State.exists_count_eq ordered
  refine ⟨k, positive, fun f rows a table distinct stands => ?_⟩
  have same : rows.Perm ((List.range (2 ^ vs.length)).filter fun row =>
      f (State.ofIndex row vs)) :=
    (List.perm_ext_iff_of_nodup distinct (List.nodup_range.filter _)).mpr fun row => by
      rw [table.mem_rows, List.mem_filter, List.mem_range]
  rw [scaled, State.count, same.countP_eq, List.countP_filter]
  · congr 1
    refine List.countP_congr fun row member => ?_
    have index := State.toIndex_ofIndex table.nodup table.short (List.mem_range.mp member)
    rw [stands.containsState_toTerm table.nodup, index, Bool.and_comm]
  · intro s t agree
    exact congrArg₂ (· && ·) (table.depends s t agree)
      (stands.containsState_congr table.nodup agree)

/-- The places of the terms with the numbers of states of the function in which they hold. -/
def weights (f : State → Bool) (terms : List Term) : List (Nat × Nat) :=
  terms.zipIdx.map fun (term, place) =>
    (place, State.count Variable.all fun s => f s && term.containsState s)

theorem leader?_coverCounts (table : IsTable f vs rows) (distinct : rows.Nodup)
    (stands : ∀ p ∈ primes, p.Over vs) :
    (leader? (coverCounts primes rows)).map Prod.snd =
      leader? (weights f (primes.map (·.toTerm vs))) := by
  obtain ⟨k, positive, share⟩ := exists_count_covers table.ordered
  rw [← leader?_map_scale Prod.snd positive, coverCounts, weights, List.zipIdx_map, List.map_map,
    List.map_map]
  refine congrArg leader? (List.map_congr_left fun p member => ?_)
  have listed : p.1 ∈ primes := List.fst_mem_of_mem_zipIdx member
  exact congrArg (Prod.mk p.2) (share f rows p.1 table distinct (stands p.1 listed)).symm

/-- The greedy choice depends on the function and on the terms of the cubes only. -/
theorem greedyFrom_eq (terms : primes.map (·.toTerm vs) = primes'.map (·.toTerm us))
    (stands : ∀ p ∈ primes, p.Over vs) (stands' : ∀ p ∈ primes', p.Over us)
    (table : IsTable f vs rows) (distinct : rows.Nodup) (table' : IsTable f us rows')
    (distinct' : rows'.Nodup) : greedyFrom primes rows = greedyFrom primes' rows' := by
  induction rows using greedyFrom.induct primes generalizing f rows' with
  | case1 rows none' =>
      have same := (leader?_coverCounts table distinct stands).trans
        (terms ▸ (leader?_coverCounts table' distinct' stands').symm)
      rw [none', Option.map_none, eq_comm, Option.map_eq_none_iff] at same
      rw [greedyFrom_of_none none', greedyFrom_of_none same]
  | case2 rows p place found ih =>
      have same := (leader?_coverCounts table distinct stands).trans
        (terms ▸ (leader?_coverCounts table' distinct' stands').symm)
      rw [found, Option.map_some, eq_comm, Option.map_eq_some_iff] at same
      obtain ⟨⟨p', place'⟩, found', here⟩ := same
      cases here
      rw [greedyFrom_of_leader? found, greedyFrom_of_leader? found']
      obtain ⟨_, counted, _⟩ := exists_count_of_leader? found
      obtain ⟨_, counted', _⟩ := exists_count_of_leader? found'
      have listed := (mem_coverCounts.mp counted).1
      have listed' := (mem_coverCounts.mp counted').1
      have term : p.toTerm vs = p'.toTerm us := by
        have places := congrArg (·[place]?) terms
        simp only [List.getElem?_map, listed, listed', Option.map_some, Option.some_inj] at places
        exact places
      have single : ∀ a ∈ [p], a.Over vs :=
        List.forall_mem_singleton.mpr (stands p (List.mem_of_getElem? listed))
      have single' : ∀ a ∈ [p'], a.Over us :=
        List.forall_mem_singleton.mpr (stands' p' (List.mem_of_getElem? listed'))
      have outside := isTable_filter table single
      have outside' := isTable_filter table' single'
      simp only [List.any_cons, List.any_nil, Bool.or_false, List.map_cons, List.map_nil]
        at outside outside'
      rw [← term] at outside'
      exact congrArg _ (ih outside (distinct.filter _) outside' (distinct'.filter _))

/-- The cubes that cover a row are those whose terms hold in its state. -/
theorem covering_toIndex (table : IsTable f vs rows) (s : State) :
    (ofRows rows vs.length).covering (s.toIndex vs) =
      ((((Implicant.primes rows vs.length).map (·.toTerm vs)).zipIdx.filter
        fun (term, _) => term.containsState s).map (·.2)) := by
  rw [covering, List.zipIdx_map, List.filter_map, List.map_map]
  refine congrArg (List.map _) (List.filter_congr fun p member => ?_)
  have stands := table.over_of_mem_primes (List.fst_mem_of_mem_zipIdx member)
  exact (stands.containsState_toTerm table.nodup s).symm

theorem essentials_eq (table : IsTable f vs rows) (table' : IsTable f us rows') :
    (ofRows rows vs.length).essentials = (ofRows rows' us.length).essentials := by
  have part {vs us : List Variable} {rows rows' : List Nat} (table : IsTable f vs rows)
      (table' : IsTable f us rows') (place : Nat)
      (essential : place ∈ (ofRows rows vs.length).essentials) :
      place ∈ (ofRows rows' us.length).essentials := by
    obtain ⟨row, member, single⟩ := mem_essentials.mp essential
    obtain ⟨low, true'⟩ := (table.distinctRows.mem_rows row).mp member
    have index := State.toIndex_ofIndex table.nodup table.short low
    refine mem_essentials.mpr ⟨(State.ofIndex row vs).toIndex us,
      (table'.distinctRows.toIndex_mem_iff _).mpr true', ?_⟩
    rw [covering_toIndex table', ← map_toTerm_primes_eq table table', ← covering_toIndex table,
      index, single]
  refine distinctRows_congr fun place => ?_
  have same : place ∈ (ofRows rows vs.length).essentials ↔
      place ∈ (ofRows rows' us.length).essentials :=
    ⟨part table table' place, part table' table place⟩
  rwa [essentials, essentials, mem_distinctRows, mem_distinctRows] at same

theorem map_toTerm_select (c : Chart) (vs : List Variable) (places : List Nat) :
    (c.select places).map (·.toTerm vs) =
      places.filterMap ((c.primes.map (·.toTerm vs))[·]?) := by
  rw [select, List.map_filterMap]
  simp only [List.getElem?_map]

/-- At one place all charts of a function have cubes with the same term. -/
theorem map_toTerm_select_eq (table : IsTable f vs rows) (table' : IsTable f us rows')
    (places : List Nat) :
    ((ofRows rows vs.length).select places).map (·.toTerm vs) =
      ((ofRows rows' us.length).select places).map (·.toTerm us) := by
  rw [map_toTerm_select, map_toTerm_select]
  exact congrArg (fun ts : List Term => List.filterMap (ts[·]?) places)
    (map_toTerm_primes_eq table table')

/-- The greedy choice is made at the same places in all charts of a function. -/
theorem greedyCover_eq (table : IsTable f vs rows) (table' : IsTable f us rows') :
    (ofRows rows vs.length).greedyCover = (ofRows rows' us.length).greedyCover := by
  have terms := map_toTerm_primes_eq table table'
  have essentials := essentials_eq table table'
  have chosen : ((ofRows rows vs.length).select (ofRows rows vs.length).essentials).map
      (·.toTerm vs) = ((ofRows rows' us.length).select (ofRows rows' us.length).essentials).map
        (·.toTerm us) := by
    rw [essentials]
    exact map_toTerm_select_eq table table' _
  have stands (p : Implicant) (member : p ∈ (ofRows rows vs.length).primes) : p.Over vs :=
    table.over_of_mem_primes member
  have stands' (p : Implicant) (member : p ∈ (ofRows rows' us.length).primes) : p.Over us :=
    table'.over_of_mem_primes member
  have taken : ∀ p ∈ (ofRows rows vs.length).select (ofRows rows vs.length).essentials,
      p.Over vs := fun p member => stands p (mem_primes_of_mem_select member)
  have taken' : ∀ p ∈ (ofRows rows' us.length).select (ofRows rows' us.length).essentials,
      p.Over us := fun p member => stands' p (mem_primes_of_mem_select member)
  have left := isTable_filter table.distinctRows taken
  have left' := isTable_filter table'.distinctRows taken'
  rw [← chosen] at left'
  rw [essentials] at left left'
  rw [greedyCover, greedyCover, essentials]
  exact congrArg _ (greedyFrom_eq terms stands stands' left ((nodup_distinctRows _).filter _) left'
    ((nodup_distinctRows _).filter _))

end Chart

end SwitchingLogic
