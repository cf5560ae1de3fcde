import SwitchingLogic.Implicant.Espresso
import SwitchingLogic.Proofs.Implicant.Chart

/-!
# Expansion

A position that cannot be freed cannot be freed later either, when the cube has grown, so that one
sweep over the positions ends with a prime implicant.  Prime implicants do not contain each other,
and so the expansion of a cover lists the primes found once each and is a cover again.
-/

namespace SwitchingLogic.Implicant

variable {rows : List Nat} {width : Nat} {a b : Implicant} {cubes kept : List Implicant}

theorem within_iff (wf : a.WellFormed) (same : a.width = width) :
    a.within (Std.HashSet.ofList rows) = true ↔ IsImplicant rows width a := by
  rw [isImplicant_iff_covered, and_iff_right wf, and_iff_right same, within, List.all_eq_true]
  simp only [Std.HashSet.contains_ofList, List.contains_iff_mem]

/-- Freeing a position, if it can be freed, gives a larger implicant. -/
theorem IsImplicant.expandAt (implicant : IsImplicant rows width a) (position : Nat) :
    IsImplicant rows width (expandAt (Std.HashSet.ofList rows) a position) ∧
      ∀ row, a.covers row = true →
        (Implicant.expandAt (Std.HashSet.ofList rows) a position).covers row = true := by
  rw [Implicant.expandAt]
  split
  · rename_i possible
    rw [Bool.and_eq_true] at possible
    have wf := implicant.wellFormed.expand position
    exact ⟨(within_iff wf implicant.width_eq).mp possible.2,
      fun row => covers_expand_of_covers implicant.wellFormed position⟩
  · exact ⟨implicant, fun row covered => covered⟩

theorem IsImplicant.grow (implicant : IsImplicant rows width a) :
    IsImplicant rows width (grow (Std.HashSet.ofList rows) a) ∧
      ∀ row, a.covers row = true →
        (Implicant.grow (Std.HashSet.ofList rows) a).covers row = true := by
  rw [Implicant.grow]
  generalize List.range a.width = positions
  induction positions generalizing a with
  | nil => exact ⟨implicant, fun row covered => covered⟩
  | cons position rest ih =>
      obtain ⟨larger, kept⟩ := implicant.expandAt position
      obtain ⟨final, keptLater⟩ := ih larger
      exact ⟨final, fun row covered => keptLater row (kept row covered)⟩

/-! ## Growing to a prime implicant -/

theorem expand_comm (a : Implicant) (first second : Nat) :
    (a.expand first).expand second = (a.expand second).expand first := by
  refine ext_bits rfl (fun i _ => ?_) fun i _ => ?_
  · simp only [value_expand]
    exact Bool.and_right_comm _ _ _
  · simp only [care_expand]
    exact Bool.and_right_comm _ _ _

/-- The position is free, or freeing it would cover a row outside the set. -/
def Blocked (rows : List Nat) (width : Nat) (a : Implicant) (position : Nat) : Prop :=
  a.isFixed position = true → ¬ IsImplicant rows width (a.expand position)

/-- After its turn a position is blocked. -/
theorem IsImplicant.blocked_expandAt (implicant : IsImplicant rows width a) (position : Nat) :
    Blocked rows width (Implicant.expandAt (Std.HashSet.ofList rows) a position) position := by
  rw [Implicant.expandAt]
  split
  · intro fixed
    have cleared : (a.expand position).isFixed position = false := by
      rw [isFixed, care_expand]
      exact (congrArg (_ && !·) (decide_eq_true rfl)).trans (Bool.and_false _)
    exact Bool.noConfusion (fixed.symm.trans cleared)
  · rename_i impossible
    intro fixed larger
    refine impossible (Bool.and_eq_true_iff.mpr ⟨fixed, ?_⟩)
    exact (within_iff (implicant.wellFormed.expand position) implicant.width_eq).mpr larger

/-- A blocked position stays blocked when other ones are freed. -/
theorem Blocked.expandAt {position : Nat} (wf : a.WellFormed)
    (blocked : Blocked rows width a position) (other : Nat) :
    Blocked rows width (Implicant.expandAt (Std.HashSet.ofList rows) a other) position := by
  rw [Implicant.expandAt]
  split
  · intro fixed larger
    rw [isFixed, care_expand, Bool.and_eq_true] at fixed
    rw [expand_comm] at larger
    exact blocked fixed.1 (larger.of_expand (wf.expand position))
  · exact blocked

/-- One sweep over the positions makes an implicant prime. -/
theorem IsImplicant.isPrime_grow (implicant : IsImplicant rows width a) :
    IsPrime rows width (Implicant.grow (Std.HashSet.ofList rows) a) := by
  have sweep : ∀ (positions : List Nat) (a : Implicant), IsImplicant rows width a →
      ∀ position, position ∈ positions ∨ Blocked rows width a position →
        Blocked rows width (positions.foldl (Implicant.expandAt (Std.HashSet.ofList rows)) a)
          position := by
    intro positions
    induction positions with
    | nil =>
        rintro a _ position (none | blocked)
        · cases none
        · exact blocked
    | cons first rest ih =>
        intro a implicant position turn
        apply ih _ (implicant.expandAt first).1
        rcases turn with turn | blocked
        · rcases List.mem_cons.mp turn with rfl | later
          · exact Or.inr (implicant.blocked_expandAt position)
          · exact Or.inl later
        · exact Or.inr (blocked.expandAt implicant.wellFormed first)
  refine ⟨implicant.grow.1, fun position inside => ?_⟩
  apply sweep (List.range a.width) a implicant position
  exact Or.inl (List.mem_range.mpr (implicant.width_eq.symm ▸ inside))

/-- A prime implicant does not grow. -/
theorem IsPrime.grow_eq (prime : IsPrime rows width a) :
    Implicant.grow (Std.HashSet.ofList rows) a = a := by
  have wf := prime.isImplicant.wellFormed
  have same := prime.isImplicant.width_eq
  have stays : ∀ position < width,
      Implicant.expandAt (Std.HashSet.ofList rows) a position = a := by
    intro position inside
    rw [Implicant.expandAt, if_neg]
    rw [Bool.and_eq_true, within_iff (wf.expand position) same]
    exact fun both => prime.maximal position inside both.1 both.2
  have run : ∀ positions : List Nat, (∀ position ∈ positions, position < width) →
      positions.foldl (Implicant.expandAt (Std.HashSet.ofList rows)) a = a := by
    intro positions below
    induction positions with
    | nil => rfl
    | cons position rest ih =>
        rw [List.foldl_cons, stays position (below position List.mem_cons_self)]
        exact ih fun later member => below later (List.mem_cons_of_mem _ member)
  rw [Implicant.grow, same]
  exact run _ fun position => List.mem_range.mp

/-- The only implicant that contains a prime one is that one itself. -/
theorem IsPrime.eq_of_contains (prime : IsPrime rows width b) (implicant : IsImplicant rows width a)
    (inside : a.contains b = true) : a = b := by
  have wf := implicant.wellFormed
  have wf' := prime.isImplicant.wellFormed
  have same := prime.isImplicant.width_eq
  rw [contains_iff wf] at inside
  have cares (i : Nat) : a.care.getLsbD i = b.care.getLsbD i := by
    rw [Bool.eq_iff_iff]
    refine ⟨fun cared => (inside i cared).1, fun cared => ?_⟩
    -- If the wider cube leaves the bit free, the prime one can be freed there as well.
    by_contra open'
    have low : i < b.width := wf'.lt_width i cared
    have place : b.width - 1 - (b.width - 1 - i) = i := by omega
    refine prime.maximal (b.width - 1 - i) (by omega) ?_ (implicant.of_covers
      (wf'.expand _) same fun row covered => ?_)
    · rwa [isFixed, place]
    · rw [covers_expand_iff wf', place] at covered
      refine (covers_iff wf row).mpr fun j cared' => ?_
      have other : i ≠ j := fun here => open' (here ▸ cared')
      exact (covered j (inside j cared').1 other).trans (inside j cared').2
  refine ext_bits (implicant.width_eq.trans same.symm) (fun i _ => ?_) fun i _ => cares i
  cases cared : a.care.getLsbD i with
  | true => exact (inside i cared).2.symm
  | false =>
      rw [wf.value_eq_false cared, wf'.value_eq_false ((cares i).symm.trans cared)]

/-! ## The expansion of a list -/

/-- Among prime implicants the maximal ones are the different ones. -/
theorem foldl_addMaximal (start : ∀ a ∈ kept, IsPrime rows width a)
    (primes : ∀ a ∈ cubes, IsPrime rows width a) :
    cubes.foldl addMaximal kept =
      kept ++ (cubes.filter fun a => !decide (a ∈ kept)).eraseDups := by
  induction cubes generalizing kept with
  | nil => simp
  | cons first rest ih =>
      have prime := primes first List.mem_cons_self
      have later : ∀ a ∈ rest, IsPrime rows width a :=
        fun a member => primes a (List.mem_cons_of_mem _ member)
      have listed : kept.any (·.contains first) = true ↔ first ∈ kept := by
        rw [List.any_eq_true]
        constructor
        · rintro ⟨a, member, inside⟩
          rwa [prime.eq_of_contains (start a member).isImplicant inside] at member
        · exact fun member => ⟨first, member, contains_self prime.isImplicant.wellFormed⟩
      rw [List.foldl_cons, addMaximal]
      by_cases old : first ∈ kept
      · rw [if_pos (listed.mpr old), List.filter_cons_of_neg (by simp [old])]
        exact ih start later
      · have all : kept.filter (fun b => !first.contains b) = kept := by
          refine List.filter_eq_self.mpr fun b member => ?_
          rw [Bool.not_eq_true', ← Bool.not_eq_true]
          intro inside
          rw [(start b member).eq_of_contains prime.isImplicant inside] at old
          exact old member
        rw [if_neg fun any => old (listed.mp any), all, ih ?_ later,
          List.filter_cons_of_pos (by simp [old]), List.eraseDups_cons, List.append_assoc,
          List.singleton_append, List.filter_filter]
        · refine congrArg (fun tail => kept ++ first :: List.eraseDups tail) ?_
          refine List.filter_congr fun b _ => ?_
          rw [Bool.eq_iff_iff]
          simp [and_comm]
        · intro a member
          rcases List.mem_append.mp member with old | new
          · exact start a old
          · exact List.mem_singleton.mp new ▸ prime

/-- The expansion lists what the cubes grow to, each prime implicant once. -/
theorem expandAll_eq (implicants : ∀ a ∈ cubes, IsImplicant rows width a) :
    expandAll (Std.HashSet.ofList rows) cubes =
      (cubes.map (Implicant.grow (Std.HashSet.ofList rows))).eraseDups := by
  have primes : ∀ a ∈ cubes.map (Implicant.grow (Std.HashSet.ofList rows)),
      IsPrime rows width a := by
    intro a member
    obtain ⟨b, listed, rfl⟩ := List.mem_map.mp member
    exact (implicants b listed).isPrime_grow
  have all := foldl_addMaximal (fun a none => (List.not_mem_nil none).elim) primes
  rw [expandAll, all, List.nil_append]
  refine congrArg List.eraseDups (List.filter_eq_self.mpr fun a _ => ?_)
  simp

theorem IsCover.expandAll (cover : IsCover rows width cubes) :
    IsCover rows width (expandAll (Std.HashSet.ofList rows) cubes) := by
  rw [expandAll_eq cover.implicants]
  constructor
  · intro b member
    obtain ⟨a, listed, rfl⟩ := List.mem_map.mp (List.mem_eraseDups.mp member)
    exact (cover.implicants a listed).grow.1
  · intro row member
    obtain ⟨a, listed, covered⟩ := cover.covering row member
    refine ⟨_, List.mem_eraseDups.mpr (List.mem_map_of_mem listed), ?_⟩
    exact (cover.implicants a listed).grow.2 row covered

/-- Different prime implicants stay as they are. -/
theorem expandAll_of_isPrime (distinct : cubes.Nodup)
    (primes : ∀ a ∈ cubes, IsPrime rows width a) :
    expandAll (Std.HashSet.ofList rows) cubes = cubes := by
  have grown : cubes.map (Implicant.grow (Std.HashSet.ofList rows)) = cubes := by
    refine (List.map_congr_left fun a member => ?_).trans (List.map_id cubes)
    exact (primes a member).grow_eq
  rw [expandAll_eq fun a member => (primes a member).isImplicant, grown,
    eraseDups_of_nodup distinct]

theorem isCover_minterms (fits : width ≤ maxWidth) (below : ∀ row ∈ rows, row < 2 ^ width) :
    IsCover rows width ((distinctRows rows).map (minterm · width)) := by
  constructor
  · intro a member
    obtain ⟨row, listed, rfl⟩ := List.mem_map.mp member
    exact isImplicant_minterm fits below (mem_distinctRows.mp listed)
  · intro row member
    have low := below row member
    exact ⟨_, List.mem_map_of_mem (mem_distinctRows.mpr member),
      (covers_minterm_iff fits low low).mpr rfl⟩

theorem minterms?_eq_some (fits : rows = [] ∨ width ≤ maxWidth) :
    minterms? rows width = some ((distinctRows rows).map (minterm · width)) := by
  rcases fits with rfl | fits
  · rw [minterms?, distinctRows_nil]
    rfl
  · have made : (minterm? · width) = fun row => (pure (minterm row width) : Option Implicant) := by
      funext row
      rw [minterm?, fullMask?_eq_some fits]
      rfl
    rw [minterms?, made, List.mapM_pure]
    rfl

/-- Beyond the masks no row has a cube. -/
theorem minterms?_eq_none {row : Nat} (listed : row ∈ rows) (wide : maxWidth < width) :
    minterms? rows width = none := by
  obtain ⟨first, rest, split⟩ :=
    List.exists_cons_of_ne_nil (List.ne_nil_of_mem (mem_distinctRows.mpr listed))
  rw [minterms?, split, List.mapM_cons, minterm?, fullMask?_eq_none wide]
  rfl

def expandRows (rows : List Nat) (width : Nat) : List Implicant :=
  expandAll (Std.HashSet.ofList rows) ((distinctRows rows).map (minterm · width))

theorem expandRows_eq (fits : width ≤ maxWidth) (below : ∀ row ∈ rows, row < 2 ^ width) :
    expandRows rows width = ((distinctRows rows).map fun row =>
      Implicant.grow (Std.HashSet.ofList rows) (minterm row width)).eraseDups := by
  rw [expandRows, expandAll_eq (isCover_minterms fits below).implicants, List.map_map]
  rfl

theorem nodup_expandRows (fits : width ≤ maxWidth) (below : ∀ row ∈ rows, row < 2 ^ width) :
    (expandRows rows width).Nodup := by
  rw [expandRows_eq fits below]
  exact nodup_eraseDups _

theorem isPrime_of_mem_expandRows (fits : width ≤ maxWidth)
    (below : ∀ row ∈ rows, row < 2 ^ width) (member : a ∈ expandRows rows width) :
    IsPrime rows width a := by
  rw [expandRows_eq fits below, List.mem_eraseDups, List.mem_map] at member
  obtain ⟨row, listed, rfl⟩ := member
  exact (isImplicant_minterm fits below (mem_distinctRows.mp listed)).isPrime_grow

end SwitchingLogic.Implicant
