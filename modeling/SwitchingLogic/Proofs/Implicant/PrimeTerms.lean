import SwitchingLogic.Proofs.Implicant.Terms
import SwitchingLogic.Proofs.Lists.Distinct

/-!
# Prime terms of a function

The prime implicants of a table are listed once each and in a strict order.  Their terms are the
prime terms of the function, which do not depend on the variables of the table, and neither does
the order; so every table of a function has the same list of prime terms.
-/

namespace SwitchingLogic.Implicant

variable {rows : List Nat} {width literals : Nat} {a b c : Implicant} {cubes : List Implicant}

/-- The lower half of the whole is the half that is already there. -/
theorem lowerHalf_expand (wf : a.WellFormed) {position : Nat} (inside : position < a.width)
    (fixed : a.isFixed position = true) (low : a.bit position = false) :
    (a.expand position).lowerHalf position = a := by
  refine ext_bits rfl (fun i _ => ?_) fun i _ => ?_
  · change (a.expand position).value.getLsbD i = a.value.getLsbD i
    rw [value_expand]
    by_cases here : a.width - 1 - position = i
    · rw [decide_eq_true here, ← here]
      exact (Bool.and_false _).trans low.symm
    · rw [decide_eq_false here, Bool.not_false, Bool.and_true]
  · rw [care_lowerHalf (wf.expand position) inside, care_expand]
    change (a.care.getLsbD i && !decide (a.width - 1 - position = i) ||
      decide (a.width - 1 - position = i)) = a.care.getLsbD i
    by_cases here : a.width - 1 - position = i
    · rw [decide_eq_true here, Bool.or_true, ← here]
      exact fixed.symm
    · rw [decide_eq_false here, Bool.not_false, Bool.and_true, Bool.or_false]

theorem isFixed_expand {position other : Nat} (inside : position < a.width)
    (below : other < a.width) :
    (a.expand position).isFixed other = (a.isFixed other && !decide (other = position)) := by
  have mirrored : a.width - 1 - position = a.width - 1 - other ↔ other = position := by omega
  rw [isFixed, care_expand]
  exact congrArg (a.isFixed other && !·) (decide_eq_decide.mpr mirrored)

/-- A union tells the position across which it was made, the last one that is free, and its lower
half. -/
theorem of_mem_unions (wf : a.WellFormed) {all : Std.HashSet Implicant}
    (member : c ∈ unions all a) :
    ∃ position < a.width, c.width = a.width ∧ c.isFixed position = false ∧
      (∀ later, position < later → later < a.width → c.isFixed later = true) ∧
      a = c.lowerHalf position := by
  obtain ⟨position, chosen, rfl⟩ := List.mem_map.mp member
  obtain ⟨tail, half⟩ := List.mem_filter.mp chosen
  obtain ⟨below, tail⟩ := mem_fixedTail.mp tail
  rw [Bool.and_eq_true, Bool.not_eq_true'] at half
  have fixed := tail position le_rfl below
  refine ⟨position, below, rfl, ?_, fun later after inside => ?_,
    (lowerHalf_expand wf below fixed half.1).symm⟩
  · rw [isFixed_expand below below, decide_eq_true rfl, Bool.not_true, Bool.and_false]
  · rw [isFixed_expand below inside, tail later after.le inside, decide_eq_false after.ne']
    rfl

theorem nodup_unions (a : Implicant) (all : Std.HashSet Implicant) : (unions all a).Nodup := by
  refine List.Nodup.map_on ?_ (((List.nodup_reverse.mpr List.nodup_range).sublist
    (List.takeWhile_sublist _)).filter _)
  intro first member second member' same
  obtain ⟨below, tail⟩ := mem_fixedTail.mp (List.mem_filter.mp member).1
  obtain ⟨below', _⟩ := mem_fixedTail.mp (List.mem_filter.mp member').1
  have open' := isFixed_expand below' below
  rw [← same, isFixed_expand below below, tail first le_rfl below, decide_eq_true rfl,
    Bool.true_and, Bool.true_and] at open'
  by_contra other
  rw [decide_eq_false other] at open'
  cases open'

theorem nodup_flatMap_unions (wfs : ∀ a ∈ cubes, a.WellFormed ∧ a.width = width)
    (nodup : cubes.Nodup) (all : Std.HashSet Implicant) : (cubes.flatMap (unions all)).Nodup := by
  refine List.nodup_flatMap.mpr ⟨fun a _ => nodup_unions a all, ?_⟩
  refine nodup.imp_of_mem fun {a b} first second other => ?_
  intro c inFirst inSecond
  obtain ⟨wf, rfl⟩ := wfs a first
  obtain ⟨wf', same⟩ := wfs b second
  obtain ⟨p, below, width, open', tail, half⟩ := of_mem_unions wf inFirst
  obtain ⟨q, below', width', open'', tail', half'⟩ := of_mem_unions wf' inSecond
  have position : p = q := by
    rcases Nat.lt_trichotomy p q with before | here | after
    · exact Bool.noConfusion ((tail q before (same ▸ below')).symm.trans open'')
    · exact here
    · exact Bool.noConfusion ((tail' p after (same.symm ▸ below)).symm.trans open')
  exact other (half.trans (position ▸ half'.symm))

theorem nodup_primesFrom (all : IsDimension rows width literals cubes) (nodup : cubes.Nodup)
    (fits : literals ≤ width) : (primesFrom literals cubes).Nodup := by
  induction literals generalizing cubes with
  | zero => exact nodup
  | succ literals ih =>
      have next := all.flatMap_unions fits
      rw [primesFrom]
      refine (nodup.filter _).append
        (ih next (nodup_flatMap_unions all.wellFormed nodup _) (Nat.le_of_succ_le fits)) ?_
      intro a here later
      have count := ((all a).mp (List.mem_filter.mp here).1).2
      have fewer := ((mem_primesFrom next (Nat.le_of_succ_le fits)).mp later).2
      omega

theorem nodup_primes (fits : width ≤ maxWidth) (below : ∀ row ∈ rows, row < 2 ^ width) :
    (primes rows width).Nodup := by
  rw [primes]
  refine (List.mergeSort_perm _ _).nodup_iff.mpr ?_
  exact nodup_primesFrom (isDimension_minterms fits below) (nodup_hashSet_toList _) le_rfl

/-! ## The order -/

instance : Std.TransCmp sizeOrder :=
  inferInstanceAs (Std.TransCmp (compareLex (compareOn literalCount) (compareLex (compareLex
    (compareOn fun a : Implicant => a.value.toNat) (compareOn fun a : Implicant => a.care.toNat))
    (compareOn fun a : Implicant => a.width))))

/-- Different cubes are never on a par. -/
theorem eq_of_sizeOrder (same : sizeOrder a b = .eq) : a = b := by
  simp only [sizeOrder, order, Ordering.then_eq_eq, Nat.compare_eq_eq] at same
  obtain ⟨_, ⟨value, care⟩, width⟩ := same
  cases a
  cases b
  cases BitVec.eq_of_toNat_eq value
  cases BitVec.eq_of_toNat_eq care
  cases width
  rfl

theorem eq_of_isLE_sizeOrder (below : (sizeOrder a b).isLE = true)
    (above : (sizeOrder b a).isLE = true) : a = b :=
  eq_of_sizeOrder (eq_eq_of_isLE below above)

theorem pairwise_primes (rows : List Nat) (width : Nat) :
    (primes rows width).Pairwise fun a b => (sizeOrder a b).isLE = true :=
  pairwise_mergeSort_isLE sizeOrder _

end SwitchingLogic.Implicant

namespace SwitchingLogic

open Implicant

/-! ## Tables of functions -/

/-- The rows of a list of variables on which a function is true.  The function does not depend on
other variables. -/
structure IsTable (f : State → Bool) (vs : List Variable) (rows : List Nat) : Prop where
  ordered : State.IsOrdered vs
  fits : vs.length ≤ maxWidth
  depends : State.DependsOnly f vs
  mem_rows : ∀ row, row ∈ rows ↔ row < 2 ^ vs.length ∧ f (State.ofIndex row vs) = true

variable {f : State → Bool} {vs us : List Variable} {rows rows' : List Nat} {a b : Implicant}
  {t : Term}

namespace IsTable

theorem nodup (table : IsTable f vs rows) : vs.Nodup := table.ordered.nodup

theorem short (table : IsTable f vs rows) : vs.length ≤ 64 := table.ordered.length_le

theorem below (table : IsTable f vs rows) : ∀ row ∈ rows, row < 2 ^ vs.length :=
  fun row member => ((table.mem_rows row).mp member).1

theorem toIndex_mem_iff (table : IsTable f vs rows) (s : State) :
    s.toIndex vs ∈ rows ↔ f s = true := by
  rw [table.mem_rows, and_iff_right (s.toIndex_lt table.short), table.depends _ s]
  exact fun v listed => s.isActive_ofIndex_toIndex table.nodup table.short listed

theorem isImplicant_iff (table : IsTable f vs rows) :
    IsImplicant rows vs.length a ↔ a.Over vs ∧ (a.toTerm vs).Implies f := by
  constructor
  · intro implicant
    refine ⟨implicant.toOver, fun s holds => ?_⟩
    rw [implicant.toOver.containsState_toTerm table.nodup] at holds
    exact (table.toIndex_mem_iff s).mp
      (implicant.covered _ (s.toIndex_lt table.short) holds)
  · rintro ⟨stands, implies⟩
    refine ⟨stands.wellFormed, stands.width_eq, fun row low covered => ?_⟩
    have index := State.toIndex_ofIndex table.nodup table.short low
    rw [table.mem_rows, and_iff_right low]
    refine implies _ ?_
    rwa [stands.containsState_toTerm table.nodup, index]

theorem isPrime_iff (table : IsTable f vs rows) (stands : a.Over vs) :
    IsPrime rows vs.length a ↔ (a.toTerm vs).IsPrime f := by
  have consistent := a.hasConflict_toTerm vs
  rw [Term.isPrime_iff]
  constructor
  · intro prime
    refine ⟨consistent, (table.isImplicant_iff.mp prime.isImplicant).2,
      fun v value fixed implies => ?_⟩
    obtain ⟨position, inside, rfl⟩ :=
      List.getElem_of_mem (stands.mem_of_fixes_toTerm table.nodup fixed)
    have place := (stands.fixes_toTerm_iff table.nodup inside value).mp fixed
    refine prime.maximal position inside place.1
      (table.isImplicant_iff.mpr ⟨stands.expand position, ?_⟩)
    rwa [stands.toTerm_expand table.nodup inside]
  · rintro ⟨_, implies, needed⟩
    refine ⟨table.isImplicant_iff.mpr ⟨stands, implies⟩, fun position inside fixed larger => ?_⟩
    refine needed vs[position] _
      ((stands.fixes_toTerm_iff table.nodup inside _).mpr ⟨fixed, rfl⟩) ?_
    rw [← stands.toTerm_expand table.nodup inside]
    exact (table.isImplicant_iff.mp larger).2

theorem toTerm_ofTerm_of_isPrime (table : IsTable f vs rows) (prime : t.IsPrime f) :
    (ofTerm t vs).toTerm vs = t :=
  (toTerm_ofTerm table.fits table.nodup prime.consistent).trans (prime.among_eq table.depends)

theorem over_of_mem_primes (table : IsTable f vs rows) (member : a ∈ primes rows vs.length) :
    a.Over vs :=
  ((mem_primes table.fits table.below).mp member).isImplicant.toOver

theorem mem_map_toTerm_primes (table : IsTable f vs rows) :
    t ∈ (primes rows vs.length).map (·.toTerm vs) ↔ t.IsPrime f := by
  rw [List.mem_map]
  constructor
  · rintro ⟨a, member, rfl⟩
    exact (table.isPrime_iff (table.over_of_mem_primes member)).mp
      ((mem_primes table.fits table.below).mp member)
  · intro prime
    have same := table.toTerm_ofTerm_of_isPrime prime
    refine ⟨ofTerm t vs, ?_, same⟩
    rw [mem_primes table.fits table.below, table.isPrime_iff (over_ofTerm table.fits t), same]
    exact prime

theorem nodup_map_toTerm_primes (table : IsTable f vs rows) :
    ((primes rows vs.length).map (·.toTerm vs)).Nodup :=
  (nodup_primes table.fits table.below).map_on fun _ member _ member' same =>
    (table.over_of_mem_primes member).eq_of_toTerm_eq (table.over_of_mem_primes member')
      table.nodup same

end IsTable

namespace Term

/-- The order of cubes, read off their terms. -/
def primeOrder (s t : Term) : Ordering :=
  (compare s.literalCount t.literalCount).then
    ((compare (State.toIndex ⟨s.positive⟩ Variable.all)
        (State.toIndex ⟨t.positive⟩ Variable.all)).then
      (compare (State.toIndex ⟨s.vars⟩ Variable.all) (State.toIndex ⟨t.vars⟩ Variable.all)))

end Term

theorem sizeOrder_eq_primeOrder (ordered : State.IsOrdered vs) (stands : a.Over vs)
    (stands' : b.Over vs) : sizeOrder a b = (a.toTerm vs).primeOrder (b.toTerm vs) := by
  have outside {c : Implicant} (stands : c.Over vs) (v : Variable) (unlisted : v ∉ vs) :
      (c.toTerm vs).positive.contains v = false ∧ (c.toTerm vs).vars.contains v = false := by
    constructor
    · refine Bool.eq_false_iff.mpr fun fixed => ?_
      have positive : (c.toTerm vs).fixes v true = true := fixed
      exact unlisted (stands.mem_of_fixes_toTerm ordered.nodup positive)
    · refine Bool.eq_false_iff.mpr fun fixed => ?_
      obtain ⟨value, fixed⟩ := (Term.contains_vars_iff _ _).mp fixed
      exact unlisted (stands.mem_of_fixes_toTerm ordered.nodup fixed)
  have positive := State.compare_toIndex ordered (s := ⟨(a.toTerm vs).positive⟩)
    (t := ⟨(b.toTerm vs).positive⟩) fun v unlisted =>
      (outside stands v unlisted).1.trans (outside stands' v unlisted).1.symm
  have fixed := State.compare_toIndex ordered (s := ⟨(a.toTerm vs).vars⟩)
    (t := ⟨(b.toTerm vs).vars⟩) fun v unlisted =>
      (outside stands v unlisted).2.trans (outside stands' v unlisted).2.symm
  rw [Term.primeOrder, stands.literalCount_toTerm ordered, stands'.literalCount_toTerm ordered,
    ← positive, ← fixed, ← stands.value_toNat ordered.nodup, ← stands'.value_toNat ordered.nodup,
    ← stands.care_toNat ordered.nodup, ← stands'.care_toNat ordered.nodup, sizeOrder, order,
    Nat.compare_eq_eq.mpr (stands.width_eq.trans stands'.width_eq.symm)]
  cases compare a.literalCount b.literalCount <;> cases compare a.value.toNat b.value.toNat <;>
    cases compare a.care.toNat b.care.toNat <;> rfl

/-- All tables of a function list the same prime terms in the same order. -/
theorem map_toTerm_primes_eq (table : IsTable f vs rows) (table' : IsTable f us rows') :
    (primes rows vs.length).map (·.toTerm vs) = (primes rows' us.length).map (·.toTerm us) := by
  have sorted {vs : List Variable} {rows : List Nat} (table : IsTable f vs rows) :
      ((primes rows vs.length).map (·.toTerm vs)).Pairwise fun s t =>
        (s.primeOrder t).isLE = true := by
    rw [List.pairwise_map]
    refine (pairwise_primes rows vs.length).imp_of_mem fun {a b} first second before => ?_
    rwa [← sizeOrder_eq_primeOrder table.ordered (table.over_of_mem_primes first)
      (table.over_of_mem_primes second)]
  refine List.Perm.eq_of_pairwise (fun s t first second below above => ?_) (sorted table)
    (sorted table') ((List.perm_ext_iff_of_nodup table.nodup_map_toTerm_primes
      table'.nodup_map_toTerm_primes).mpr fun t =>
        table.mem_map_toTerm_primes.trans table'.mem_map_toTerm_primes.symm)
  rw [table'.mem_map_toTerm_primes, ← table.mem_map_toTerm_primes] at second
  obtain ⟨a, member, rfl⟩ := List.mem_map.mp first
  obtain ⟨b, member', rfl⟩ := List.mem_map.mp second
  have stands := table.over_of_mem_primes member
  have stands' := table.over_of_mem_primes member'
  rw [← sizeOrder_eq_primeOrder table.ordered stands stands'] at below
  rw [← sizeOrder_eq_primeOrder table.ordered stands' stands] at above
  rw [eq_of_isLE_sizeOrder below above]

end SwitchingLogic
