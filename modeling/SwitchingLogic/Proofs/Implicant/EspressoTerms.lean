import SwitchingLogic.Proofs.Implicant.ChartTerms
import SwitchingLogic.Proofs.Implicant.Irredundant

/-!
# Expansion and reduction on terms

A cube grows as its term does, by freeing one variable after the other as long as the function is
implied.  A variable on which the function does not depend is always freed, and what grows from a
state is a prime term.  So the first expansion lists the prime terms that grow from the states of
the function, each where it grows first, and the reduction looks at nothing but these terms.
-/

namespace SwitchingLogic

open Implicant

variable {f : State → Bool} {vs us : List Variable} {rows rows' : List Nat} {a : Implicant}
  {cubes kept : List Implicant}

namespace Implicant

theorem minterm_toIndex (fits : vs.length ≤ maxWidth) (nodup : vs.Nodup) (s : State) :
    (minterm (s.toIndex vs) vs.length).toTerm vs = (Term.ofState s).among vs := by
  refine Term.ext_fixes fun v value => ?_
  rw [Term.fixes_among, Bool.eq_iff_iff, fixes_toTerm_minterm fits nodup, Bool.and_eq_true,
    Term.fixes_ofState, decide_eq_true_eq]
  exact and_comm

end Implicant

namespace IsTable

theorem toTerm_expandAt (table : IsTable f vs rows) (implicant : IsImplicant rows vs.length a)
    {position : Nat} (inside : position < vs.length) :
    (expandAt (Std.HashSet.ofList rows) a position).toTerm vs =
      (a.toTerm vs).widen f vs[position] := by
  have stands := implicant.toOver
  have possible : (a.expand position).within (Std.HashSet.ofList rows) = true ↔
      ((a.toTerm vs).drop vs[position]).Implies f := by
    rw [within_iff (stands.expand position).wellFormed implicant.width_eq, table.isImplicant_iff,
      stands.toTerm_expand table.nodup inside]
    exact and_iff_right (stands.expand position)
  rw [expandAt, Term.widen]
  cases fixed : a.isFixed position with
  | false =>
      have nothing : (a.toTerm vs).drop vs[position] = a.toTerm vs := by
        refine Term.drop_eq_self fun value => Bool.eq_false_iff.mpr fun fixes => ?_
        have place := ((stands.fixes_toTerm_iff table.nodup inside value).mp fixes).1
        exact Bool.noConfusion (fixed.symm.trans place)
      rw [Bool.false_and, if_neg Bool.false_ne_true, nothing, ite_self]
  | true =>
      rw [Bool.true_and]
      by_cases larger : ((a.toTerm vs).drop vs[position]).Implies f
      · rw [if_pos larger, if_pos (possible.mpr larger), stands.toTerm_expand table.nodup inside]
      · rw [if_neg larger, if_neg fun within => larger (possible.mp within)]

/-- A cube grows as its term does. -/
theorem toTerm_grow (table : IsTable f vs rows) (implicant : IsImplicant rows vs.length a) :
    (grow (Std.HashSet.ofList rows) a).toTerm vs = (a.toTerm vs).widenAll f vs := by
  have step : ∀ (places : List (Variable × Nat)) (a : Implicant),
      IsImplicant rows vs.length a → (∀ p ∈ places, vs[p.2]? = some p.1) →
        ((places.map Prod.snd).foldl (expandAt (Std.HashSet.ofList rows)) a).toTerm vs =
          (a.toTerm vs).widenAll f (places.map Prod.fst) := by
    intro places
    induction places with
    | nil => exact fun _ _ _ => rfl
    | cons p rest ih =>
        intro a implicant found
        obtain ⟨inside, here⟩ := List.getElem?_eq_some_iff.mp (found p List.mem_cons_self)
        have next := ih _ (implicant.expandAt p.2).1
          fun q member => found q (List.mem_cons_of_mem _ member)
        rw [table.toTerm_expandAt implicant inside, here] at next
        exact next
  have all := step vs.zipIdx a implicant fun p => List.mem_zipIdx_iff_getElem?.mp
  rwa [List.zipIdx_map_snd, List.zipIdx_map_fst, ← List.range_eq_range', ← implicant.width_eq]
    at all

/-- From the cube of a row grows what grows from its state. -/
theorem toTerm_grow_minterm (table : IsTable f vs rows) {s : State} (true' : f s = true) :
    (grow (Std.HashSet.ofList rows) (minterm (s.toIndex vs) vs.length)).toTerm vs =
      Term.grown f s := by
  have member := (table.toIndex_mem_iff s).mpr true'
  rw [table.toTerm_grow (isImplicant_minterm table.fits table.below member),
    minterm_toIndex table.fits table.nodup, Term.grown_eq table.ordered table.depends true']

end IsTable

/-- Some state from which the first term grows comes before all those from which the second one
grows. -/
def Term.Before (f : State → Bool) (t u : Term) : Prop :=
  ∃ s, f s = true ∧ grown f s = t ∧
    ∀ s', f s' = true → grown f s' = u → s.toIndex Variable.all < s'.toIndex Variable.all

theorem Term.Before.asymm {t u : Term} (before : t.Before f u) : ¬ u.Before f t := by
  rintro ⟨s', true', grows', first'⟩
  obtain ⟨s, true'', grows, first⟩ := before
  exact absurd (first s' true' grows') (Nat.not_lt.mpr (first' s true'' grows).le)

namespace IsTable

theorem over_of_mem_expandRows (table : IsTable f vs rows)
    (member : a ∈ expandRows rows vs.length) : a.Over vs :=
  (isPrime_of_mem_expandRows table.fits table.below member).isImplicant.toOver

/-- Expansion finds what grows from the states of the function. -/
theorem mem_map_toTerm_expandRows (table : IsTable f vs rows) {t : Term} :
    t ∈ (expandRows rows vs.length).map (·.toTerm vs) ↔ ∃ s, f s = true ∧ Term.grown f s = t := by
  rw [List.mem_map, expandRows_eq table.fits table.below]
  simp only [List.mem_eraseDups, List.mem_map, mem_distinctRows]
  constructor
  · rintro ⟨_, ⟨row, member, rfl⟩, rfl⟩
    obtain ⟨low, true'⟩ := (table.mem_rows row).mp member
    have grows := table.toTerm_grow_minterm true'
    rw [State.toIndex_ofIndex table.nodup table.short low] at grows
    exact ⟨_, true', grows.symm⟩
  · rintro ⟨s, true', rfl⟩
    exact ⟨_, ⟨_, (table.toIndex_mem_iff s).mpr true', rfl⟩, table.toTerm_grow_minterm true'⟩

theorem nodup_map_toTerm_expandRows (table : IsTable f vs rows) :
    ((expandRows rows vs.length).map (·.toTerm vs)).Nodup := by
  refine List.Nodup.map_on (fun _ member _ member' same => ?_) ?_
  · exact (table.over_of_mem_expandRows member).eq_of_toTerm_eq
      (table.over_of_mem_expandRows member') table.nodup same
  · exact nodup_expandRows table.fits table.below

/-- What is listed first grows first. -/
theorem pairwise_map_toTerm_expandRows (table : IsTable f vs rows) :
    ((expandRows rows vs.length).map (·.toTerm vs)).Pairwise (Term.Before f) := by
  have order := pairwise_eraseDups_map
    (fun row => grow (Std.HashSet.ofList rows) (minterm row vs.length)) (pairwise_distinctRows rows)
  rw [List.pairwise_map]
  rw [← expandRows_eq table.fits table.below] at order
  refine order.imp_of_mem ?_
  rintro a b _ second ⟨row, member, rfl, first⟩
  obtain ⟨low, true'⟩ := (table.mem_rows row).mp (mem_distinctRows.mp member)
  have index := State.toIndex_ofIndex table.nodup table.short low
  have grows := table.toTerm_grow_minterm true'
  rw [index] at grows
  refine ⟨_, true', grows.symm, fun s' true'' grows' => ?_⟩
  have member' := (table.toIndex_mem_iff s').mpr true''
  have stands := (isImplicant_minterm table.fits table.below member').grow.1.toOver
  have same := stands.eq_of_toTerm_eq (table.over_of_mem_expandRows second) table.nodup
    ((table.toTerm_grow_minterm true'').trans grows')
  have below := first _ (mem_distinctRows.mpr member') same
  have low' := s'.toIndex_lt table.short
  have index' := State.toIndex_ofIndex table.nodup table.short low'
  have outside := State.compare_toIndex table.ordered (s := State.ofIndex row vs)
    (t := State.ofIndex (s'.toIndex vs) vs) fun v unlisted => by
      rw [State.isActive_ofIndex_of_not_mem _ unlisted,
        State.isActive_ofIndex_of_not_mem _ unlisted]
  rw [index, index', Nat.compare_eq_lt.mpr below, eq_comm, Nat.compare_eq_lt] at outside
  refine outside.trans_le (State.toIndex_mono (Variable.length_all.le.trans (by decide)) ?_)
  intro v active
  by_cases listed : v ∈ vs
  · rwa [s'.isActive_ofIndex_toIndex table.nodup table.short listed] at active
  · rw [State.isActive_ofIndex_of_not_mem _ listed] at active
    cases active

end IsTable

/-- All tables of a function expand to the same terms in the same order. -/
theorem map_toTerm_expandRows_eq (table : IsTable f vs rows) (table' : IsTable f us rows') :
    (expandRows rows vs.length).map (·.toTerm vs) =
      (expandRows rows' us.length).map (·.toTerm us) := by
  refine List.Perm.eq_of_pairwise (fun t u _ _ below above => (below.asymm above).elim)
    table.pairwise_map_toTerm_expandRows table'.pairwise_map_toTerm_expandRows
    ((List.perm_ext_iff_of_nodup table.nodup_map_toTerm_expandRows
      table'.nodup_map_toTerm_expandRows).mpr fun t => ?_)
  exact table.mem_map_toTerm_expandRows.trans table'.mem_map_toTerm_expandRows.symm

namespace Implicant

theorem coveredBy_iff (stands : a.Over vs) (stand : ∀ b ∈ cubes, b.Over vs) (nodup : vs.Nodup) :
    a.coveredBy cubes = true ↔ ∀ s, (a.toTerm vs).containsState s = true →
      (cubes.map (·.toTerm vs)).any (·.containsState s) = true := by
  simp only [any_containsState_map stand nodup, stands.containsState_toTerm nodup]
  rw [coveredBy, List.all_eq_true]
  simp only [mem_covered stands.wellFormed, stands.width_eq]
  constructor
  · exact fun all s covered => all _ ⟨s.toIndex_lt stands.short, covered⟩
  · rintro all row ⟨low, covered⟩
    have index := State.toIndex_ofIndex nodup stands.short low
    have here := all (State.ofIndex row vs)
    rw [index] at here
    exact here covered

/-- Which cubes are dropped depends on their terms only. -/
theorem map_toTerm_reduceFrom_eq {kept' cubes' : List Implicant} (nodup : vs.Nodup)
    (nodup' : us.Nodup) (stands : ∀ a ∈ kept ++ cubes, a.Over vs)
    (stands' : ∀ a ∈ kept' ++ cubes', a.Over us)
    (early : kept.map (·.toTerm vs) = kept'.map (·.toTerm us))
    (late : cubes.map (·.toTerm vs) = cubes'.map (·.toTerm us)) :
    (reduceFrom kept cubes).map (·.toTerm vs) = (reduceFrom kept' cubes').map (·.toTerm us) := by
  induction cubes generalizing kept kept' cubes' with
  | nil =>
      cases List.map_eq_nil_iff.mp late.symm
      exact early
  | cons a rest ih =>
      obtain ⟨a', rest', rfl, first, others⟩ := List.map_eq_cons_iff.mp late.symm
      have part : ∀ b ∈ kept ++ rest, b.Over vs := fun b member =>
        stands b (((List.sublist_cons_self a rest).append_left kept).subset member)
      have part' : ∀ b ∈ kept' ++ rest', b.Over us := fun b member =>
        stands' b (((List.sublist_cons_self a' rest').append_left kept').subset member)
      have same : a.coveredBy (kept ++ rest) = a'.coveredBy (kept' ++ rest') := by
        rw [Bool.eq_iff_iff, coveredBy_iff (stands a (by simp)) part nodup,
          coveredBy_iff (stands' a' (by simp)) part' nodup', first, List.map_append,
          List.map_append, early, others]
      rw [reduceFrom, reduceFrom, same]
      split
      · exact ih part part' early others.symm
      · refine ih ?_ ?_ ?_ others.symm
        · rwa [← List.append_cons]
        · rwa [← List.append_cons]
        · rw [List.map_append, List.map_append, early, List.map_singleton, List.map_singleton,
            first]

end Implicant

/-- All tables of a function have covers with the same terms. -/
theorem map_toTerm_espresso_eq (table : IsTable f vs rows) (table' : IsTable f us rows') :
    (espresso rows vs.length).map (·.toTerm vs) =
      (espresso rows' us.length).map (·.toTerm us) := by
  rw [espresso_eq table.fits table.below, espresso_eq table'.fits table'.below]
  exact map_toTerm_reduceFrom_eq table.nodup table'.nodup
    (fun a member => table.over_of_mem_expandRows member)
    (fun a member => table'.over_of_mem_expandRows member) rfl
    (map_toTerm_expandRows_eq table table')

end SwitchingLogic
