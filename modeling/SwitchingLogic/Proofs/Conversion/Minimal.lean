import Mathlib.Data.List.Perm.Subperm
import SwitchingLogic.Proofs.Conversion.Absorption
import SwitchingLogic.Proofs.Conversion.Outcome
import SwitchingLogic.Proofs.Term.Prime

/-!
# Minimal terms

Clearing a list of terms leaves its minimal terms: those without conflict that do not include all
literals of another one.  There is one way only to list them in the order of display, so neither
the order of the removals nor the sorting in between makes a difference.
-/

namespace SwitchingLogic.Conversion

variable {ts us ms : List Term} {t : Term}

/-- A term of the list without conflict that includes no other one. -/
structure IsMinimal (ts : List Term) (t : Term) : Prop where
  mem : t ∈ ts
  consistent : t.hasConflict = false
  minimal : ∀ u ∈ ts, u.hasConflict = false → u.contains t = true → u = t

instance (ts : List Term) (t : Term) : Decidable (IsMinimal ts t) :=
  decidable_of_iff (t ∈ ts ∧ t.hasConflict = false ∧
      ∀ u ∈ ts, u.hasConflict = false → u.contains t = true → u = t)
    ⟨fun ⟨mem, consistent, minimal⟩ => ⟨mem, consistent, minimal⟩,
      fun ⟨mem, consistent, minimal⟩ => ⟨mem, consistent, minimal⟩⟩

/-- The minimal terms of a list, each of them once and in the order of display. -/
structure IsShortest (ts ms : List Term) : Prop where
  mem_iff : ∀ t, t ∈ ms ↔ IsMinimal ts t
  sorted : ms.Pairwise fun s t => Term.sizeOrder s t = .lt

theorem IsShortest.nodup (shortest : IsShortest ts ms) : ms.Nodup := by
  refine shortest.sorted.imp fun {s t} before same => ?_
  subst same
  have equal : Term.sizeOrder s s = .eq := Std.ReflCmp.compare_self
  cases before.symm.trans equal

theorem IsShortest.length_le (shortest : IsShortest ts ms) : ms.length ≤ ts.length :=
  (shortest.nodup.subperm fun t listed => ((shortest.mem_iff t).mp listed).mem).length_le

theorem IsShortest.eq_of_contains (shortest : IsShortest ts ms) {s t : Term} (first : s ∈ ms)
    (second : t ∈ ms) (inside : s.contains t = true) : s = t := by
  have wider := (shortest.mem_iff s).mp first
  exact ((shortest.mem_iff t).mp second).minimal s wider.mem wider.consistent inside

/-- The minimal terms are minimal among themselves. -/
theorem IsShortest.self (shortest : IsShortest ts ms) : IsShortest ms ms := by
  refine ⟨fun t => ⟨fun listed => ?_, fun minimal => minimal.mem⟩, shortest.sorted⟩
  exact ⟨listed, ((shortest.mem_iff t).mp listed).consistent,
    fun u other _ inside => shortest.eq_of_contains other listed inside⟩

theorem IsShortest.unique (shortest : IsShortest ts ms) (shortest' : IsShortest ts us) :
    ms = us := by
  have same : ms.Perm us := (List.perm_ext_iff_of_nodup shortest.nodup shortest'.nodup).mpr
    fun t => (shortest.mem_iff t).trans (shortest'.mem_iff t).symm
  refine same.eq_of_pairwise (fun s t _ _ before after => ?_) shortest.sorted shortest'.sorted
  cases (Std.OrientedCmp.gt_of_lt after).symm.trans before

theorem isShortest_sort (members : ∀ t, t ∈ us ↔ IsMinimal ts t) (distinct : us.Nodup) :
    IsShortest ts (Term.sort us) where
  mem_iff t := (Term.sort_perm us).mem_iff.trans (members t)
  sorted := Term.pairwise_lt_sort distinct fun t listed => ((members t).mp listed).consistent

/-- Among the terms without conflict, the minimal ones are those that nothing absorbs. -/
theorem mem_withoutAbsorbed_iff_isMinimal (members : ∀ t, t ∈ us ↔ t ∈ withoutConflicts ts) :
    t ∈ withoutAbsorbed us ↔ IsMinimal ts t := by
  simp only [mem_withoutAbsorbed, members, mem_withoutConflicts]
  constructor
  · rintro ⟨⟨listed, consistent⟩, nothing⟩
    refine ⟨listed, consistent, fun u other consistent' inside => ?_⟩
    by_contra different
    exact nothing u ⟨other, consistent'⟩ ⟨inside, different⟩
  · rintro ⟨listed, consistent, minimal⟩
    refine ⟨⟨listed, consistent⟩, ?_⟩
    rintro u ⟨other, consistent'⟩ ⟨inside, different⟩
    exact different (minimal u other consistent' inside)

/-- The order in which the terms turn up in between makes no difference. -/
theorem isShortest_sort_of_perm (single : us.Perm (withoutConflicts ts).eraseDups)
    (left : ms.Perm (withoutAbsorbed us)) : IsShortest ts (Term.sort ms) := by
  have members (t : Term) : t ∈ us ↔ t ∈ withoutConflicts ts :=
    single.mem_iff.trans List.mem_eraseDups
  have distinct : us.Nodup := single.nodup_iff.mpr (nodup_eraseDups _)
  apply isShortest_sort
  · intro t
    exact left.mem_iff.trans (mem_withoutAbsorbed_iff_isMinimal members)
  · exact left.nodup_iff.mpr (distinct.filter _)

theorem AbsorbsTo.isShortest (run : AbsorbsTo us ms)
    (single : us.Perm (withoutConflicts ts).eraseDups) : IsShortest ts (Term.sort ms) :=
  isShortest_sort_of_perm single (.of_eq run.eq)

/-- Nothing but the order depends on whether a step is recorded. -/
theorem Progress.perm_terms_remove (p : Progress) (form : NormalForm) (action : Nat → Action)
    {remove : List Term → List Term} (fewer : ∀ ts, (remove ts).Sublist ts) :
    (p.remove form action remove).terms.Perm (remove p.terms) := by
  unfold Progress.remove
  dsimp only
  split
  · exact Term.sort_perm _
  · rename_i unchanged
    exact .of_eq ((fewer p.terms).eq_of_length_le (Nat.le_of_not_lt unchanged)).symm

theorem isShortest_clear (p : Progress) (form : NormalForm) :
    IsShortest p.terms (Term.sort (p.clear form).terms) := by
  let consistent := p.remove form .removedConflicts withoutConflicts
  let single := consistent.remove form .removedRepetitions List.eraseDups
  have first : consistent.terms.Perm (withoutConflicts p.terms) :=
    p.perm_terms_remove form _ fun ts => List.filter_sublist
  have second : single.terms.Perm (withoutConflicts p.terms).eraseDups := by
    refine (consistent.perm_terms_remove form _ eraseDups_sublist).trans ?_
    refine (List.perm_ext_iff_of_nodup (nodup_eraseDups _) (nodup_eraseDups _)).mpr fun t => ?_
    rw [List.mem_eraseDups, List.mem_eraseDups, first.mem_iff]
  exact isShortest_sort_of_perm second
    (single.perm_terms_remove form _ fun ts => List.filter_sublist)

end SwitchingLogic.Conversion
