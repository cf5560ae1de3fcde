import Mathlib.Order.Bounds.Defs
import SwitchingLogic.Proofs.Implicant.Chart
import SwitchingLogic.Proofs.Karnaugh.Map

/-!
# Greedy grouping

Every rectangle on the torus with powers of two for its sides is looked at, larger ones first.  If
its cells have one value and form a sub-cube, nothing but a cell that is taken already can keep it
from becoming a group, and what has been taken is as large at least.  So the largest group is as
large as a rectangle can be.  Rectangles that have been looked at before may be passed over.
-/

namespace SwitchingLogic.Karnaugh

namespace Grid

variable {α : Type} [LogicFunction α] {f : α} {g : Grid} {target : Bool} {groups : List Group}
  {places : List Place} {place : Place} {top left height width : Nat}

/-- The places are those in whose states a product of literals holds. -/
def IsCube (g : Grid) (places : List Place) : Prop :=
  ∃ t : Term, ∀ place, g.Inside place → (t.containsState (g.state place) = true ↔ place ∈ places)

theorem isCube_congr {others : List Place} (same : ∀ place, place ∈ places ↔ place ∈ others) :
    g.IsCube places ↔ g.IsCube others := by
  simp only [IsCube, same]

theorem isCube_of_cube? (shown : g.Shows f) (nodup : places.Nodup)
    (inside : ∀ place ∈ places, g.Inside place) {term : Term}
    (cube : g.cube? places = some term) : g.IsCube places := by
  have short : g.vars.length ≤ 64 := shown.short.trans (by decide)
  refine ⟨term, fun place here => containsState_of_cube? shown nodup inside cube here ?_⟩
  exact State.toIndex_ofIndex shown.nodup short (shown.minterm_lt place here)

/-- The smallest cube around the cells of a sub-cube has no other cells. -/
theorem exists_cube?_eq (shown : g.Shows f) (nodup : places.Nodup)
    (inside : ∀ place ∈ places, g.Inside place) (some' : places ≠ []) (cube : g.IsCube places) :
    ∃ term, g.cube? places = some term := by
  obtain ⟨t, holds⟩ := cube
  obtain ⟨corner, first⟩ := List.exists_mem_of_ne_nil places some'
  have corner' := List.mem_map_of_mem (f := g.minterm) first
  have rows : (places.map g.minterm).Nodup := nodup.map_on fun a a' b b' same =>
    shown.minterm_inj a b (inside a a') (inside b b') same
  have literals {place : Place} (member : place ∈ places) {v : Variable} {value : Bool}
      (fixed : t.fixes v value = true) : (g.state place).isActive v = value :=
    (t.containsState_iff _).mp ((holds place (inside place member)).mpr member) v value fixed
  have exact' (row : Nat) : row ∈ places.map g.minterm ↔ row < 2 ^ g.vars.length ∧
      (Implicant.hull (places.map g.minterm) g.vars.length).covers row = true := by
    constructor
    · intro member
      obtain ⟨place, listed, rfl⟩ := List.mem_map.mp member
      exact ⟨shown.minterm_lt place (inside place listed), Implicant.covers_hull shown.fits member⟩
    · rintro ⟨below, covered⟩
      obtain ⟨place, here, rfl⟩ := shown.exists_minterm row below
      refine List.mem_map_of_mem ((holds place here).mp ((t.containsState_iff _).mpr ?_))
      intro v value fixed
      by_cases listed : v ∈ g.vars
      · obtain ⟨position, low, rfl⟩ := List.getElem_of_mem listed
        rw [state, State.isActive_ofIndex _ shown.nodup low]
        refine Implicant.testBit_of_covers_hull shown.fits (by omega)
          (List.ne_nil_of_mem corner') (fun row member => ?_) covered
        obtain ⟨other, listed', rfl⟩ := List.mem_map.mp member
        rw [← State.isActive_ofIndex _ shown.nodup low]
        exact literals listed' fixed
      · have free := literals first fixed
        rw [state, State.isActive_ofIndex_of_not_mem _ listed] at free ⊢
        exact free
  have size := Implicant.length_of_covers (Implicant.wellFormed_hull shown.fits corner') rows exact'
  rw [List.length_map, ← Nat.one_shiftLeft] at size
  exact ⟨_, if_pos size⟩

/-- A rectangle on the torus, given by its first corner and its sides: the sides are powers of two,
and the cells have the value and form a sub-cube. -/
structure Candidate (g : Grid) (target : Bool) (top left height width : Nat) : Prop where
  height_power : height.isPowerOfTwo
  width_power : width.isPowerOfTwo
  height_le : height ≤ g.height
  width_le : width ≤ g.width
  value : ∀ place ∈ spanned g.height g.width top left height width, g.value place = target
  cube : g.IsCube (spanned g.height g.width top left height width)

/-- A candidate shares a cell with a group that is as large at least, itself if it is taken. -/
theorem Candidate.exists_mem_groups (shown : g.Shows f)
    (candidate : g.Candidate target top left height width) :
    ∃ group ∈ g.groups target, height * width ≤ group.size ∧
      ∃ place ∈ spanned g.height g.width top left height width, place ∈ group.places := by
  have heightPositive : 0 < height := Nat.pos_of_isPowerOfTwo candidate.height_power
  have widthPositive : 0 < width := Nat.pos_of_isPowerOfTwo candidate.width_power
  have row : top % g.height < g.height := Nat.mod_lt _ (heightPositive.trans_le candidate.height_le)
  have column : left % g.width < g.width := Nat.mod_lt _ (widthPositive.trans_le candidate.width_le)
  have walk := rectangle_perm row column candidate.height_le candidate.width_le
  rw [spanned_mod] at walk
  have listed : rectangle g.height g.width (top % g.height) (left % g.width) height width ∈
      rectangles g.height g.width :=
    mem_rectangles.mpr ⟨_, row, _, column, height, width, ⟨candidate.height_power,
      candidate.width_power, candidate.height_le, candidate.width_le⟩, rfl⟩
  have size := walk.length_eq.trans (length_spanned _ _ _ _)
  have some' : rectangle g.height g.width (top % g.height) (left % g.width) height width ≠ [] :=
    List.ne_nil_of_length_pos (size ▸ Nat.mul_pos heightPositive widthPositive)
  obtain ⟨term, cube⟩ := exists_cube?_eq shown (nodup_rectangle _ _ _ _)
    (fun place member => inside_of_mem_rectangles listed member) some'
    ((isCube_congr fun place => walk.mem_iff).mpr candidate.cube)
  obtain ⟨group, member, large, place, shared, held⟩ := exists_mem_groups_of_cube? listed
    (fun place member => candidate.value place (walk.mem_iff.mp member)) cube
  exact ⟨group, member, size ▸ large, place, walk.mem_iff.mp shared, held⟩

/-- Groups are candidates. -/
theorem exists_candidate_of_mem_groups (shown : g.Shows f) {group : Group}
    (member : group ∈ g.groups target) :
    ∃ top left height width, g.Candidate target top left height width ∧
      group.places.Perm (spanned g.height g.width top left height width) := by
  have grouped := g.grouped_groups target
  obtain ⟨top, row, left, column, height, width, ⟨heightPower, widthPower, low, narrow⟩, whole⟩ :=
    mem_rectangles.mp (places_mem_of_mem_foldl member)
  have walk := rectangle_perm row column low narrow
  rw [← whole] at walk
  have cube : g.IsCube group.places := isCube_of_cube? shown (grouped.nodup group member)
    (grouped.inside group member) (grouped.cube group member)
  exact ⟨top, left, height, width, {
    height_power := heightPower
    width_power := widthPower
    height_le := low
    width_le := narrow
    value := fun place listed => grouped.value group member place (walk.mem_iff.mpr listed)
    cube := (isCube_congr fun place => walk.mem_iff).mp cube }, walk⟩

/-! ## Rectangles seen before -/

/-- The rectangles that have been looked at, and the groups taken from them. -/
structure Scan where
  seen : List (List Place)
  groups : List Group

def examine (g : Grid) (target : Bool) (scan : Scan) (places : List Place) : Scan :=
  if scan.seen.contains places then scan
  else ⟨places :: scan.seen, g.addGroup target scan.groups places⟩

theorem Refuses.mono {more : List Group} (refuses : g.Refuses target groups places)
    (part : groups ⊆ more) : g.Refuses target more places := by
  rcases refuses with ⟨place, listed, blocked⟩ | none'
  · refine Or.inl ⟨place, listed, ?_⟩
    rw [← Bool.not_eq_true, isFree_iff] at blocked ⊢
    exact fun free => blocked ⟨free.1, fun group member => free.2 group (part member)⟩
  · exact Or.inr none'

/-- Once looked at, a rectangle is refused: its cells are taken, by itself or by what refused it. -/
theorem refuses_addGroup (g : Grid) (target : Bool) (groups : List Group) (places : List Place) :
    g.Refuses target (g.addGroup target groups places) places := by
  rcases g.addGroup_cases target groups places with ⟨term, cube, _, taken⟩ | ⟨refuses, same⟩
  · obtain ⟨k, size⟩ := length_of_cube? cube
    obtain ⟨corner, first⟩ := List.exists_mem_of_length_pos (size ▸ Nat.two_pow_pos k)
    refine Or.inl ⟨corner, first, ?_⟩
    rw [taken, ← Bool.not_eq_true, isFree_iff]
    exact fun free => free.2 _ (List.mem_append_right _ (List.mem_singleton_self _)) first
  · rwa [same]

theorem addGroup_of_refuses (refuses : g.Refuses target groups places) :
    g.addGroup target groups places = groups := by
  rcases g.addGroup_cases target groups places with ⟨term, cube, free, _⟩ | ⟨_, same⟩
  · rcases refuses with ⟨place, listed, blocked⟩ | none'
    · exact absurd (free place listed) (Bool.not_eq_true _ ▸ blocked)
    · rw [none'] at cube
      cases cube
  · exact same

/-- Passing over the rectangles seen before leaves out no group. -/
theorem groups_foldl_examine (g : Grid) (target : Bool) :
    ((rectangles g.height g.width).foldl (g.examine target) ⟨[], []⟩).groups = g.groups target := by
  have run (later : List (List Place)) (scan : Scan)
      (refused : ∀ places ∈ scan.seen, g.Refuses target scan.groups places) :
      (later.foldl (g.examine target) scan).groups =
        later.foldl (g.addGroup target) scan.groups := by
    induction later generalizing scan with
    | nil => rfl
    | cons places later ih =>
        rw [List.foldl_cons, List.foldl_cons, examine]
        split
        · rename_i before
          have refuses := refused places (List.contains_iff_mem.mp before)
          rw [addGroup_of_refuses refuses, ih scan refused]
        · refine ih ⟨places :: scan.seen, _⟩ fun other seen => ?_
          obtain rfl | seen := List.mem_cons.mp seen
          · exact g.refuses_addGroup target scan.groups other
          · exact (refused other seen).mono (g.subset_addGroup target scan.groups places)
  exact run _ ⟨[], []⟩ nofun

end Grid

namespace Map

variable {α : Type} [LogicFunction α]

/-- The size of the largest group bounds the sizes of all groups, and is one of them if there are
any. -/
theorem largestGroup_spec (m : Map) :
    (∀ group ∈ m.groups, group.size ≤ m.largestGroup) ∧
      (m.largestGroup = 0 ∨ ∃ group ∈ m.groups, group.size = m.largestGroup) := by
  have spec := Chart.foldl_max_spec (m.groups.map fun group => (group, group.size)) 0
  simp only [List.foldl_map, List.mem_map] at spec
  rw [largestGroup, List.foldl_map]
  refine ⟨fun group member => spec.2.1 _ ⟨group, member, rfl⟩, ?_⟩
  rcases spec.2.2 with none' | ⟨_, ⟨group, member, rfl⟩, top⟩
  · exact Or.inl none'
  · exact Or.inr ⟨group, member, top⟩

/-- The groups are taken greedily: they are candidates, each candidate has a cell in a group that is
as large at least, and the largest group is as large as the largest candidate of ones, if there are
any ones. -/
theorem exists_build_greedy (f : α) (vs : List Variable) (includePos : Bool) (nodup : vs.Nodup)
    (several : 2 ≤ vs.length) (short : vs.length ≤ 6) (depends : LogicFunction.DependsOn f vs) :
    let g := Grid.ofFunction f vs
    (∀ target, ∀ group ∈ g.groups target, group.places.Nodup ∧
        ∃ top left height width, g.Candidate target top left height width ∧
          group.places.Perm (spanned g.height g.width top left height width)) ∧
      (∀ target top left height width, g.Candidate target top left height width →
        ∃ group ∈ g.groups target, height * width ≤ group.size ∧
          ∃ place ∈ spanned g.height g.width top left height width, place ∈ group.places) ∧
      ∃ m, build f vs includePos = .ok m ∧ m.grid = g ∧ m.groups.Perm (g.groups true) ∧
        ((m.largestGroup = 0 ∧ ∀ place ∈ g.places.flatten, g.value place = false) ∨
          IsGreatest {size | ∃ top left height width,
            g.Candidate true top left height width ∧ height * width = size} m.largestGroup) := by
  intro g
  have shown : g.Shows f := Grid.shows_ofFunction nodup short depends
  obtain ⟨m, built, grid, same⟩ : ∃ m, build f vs includePos = .ok m ∧ m.grid = g ∧
      m.groups.Perm (g.groups true) := by
    have size : dimensions vs.length =
        .ok (1 <<< (axisBits vs.length).1, 1 <<< (axisBits vs.length).2) := if_neg (by omega)
    exact ⟨_, Error.bind_eq_ok_iff.mpr ⟨_, size, rfl⟩, rfl, List.mergeSort_perm _ _⟩
  refine ⟨fun target group member => ?_, fun target top left height width candidate => ?_, m, built,
    grid, same, ?_⟩
  · exact ⟨(g.grouped_groups target).nodup group member,
      Grid.exists_candidate_of_mem_groups shown member⟩
  · exact candidate.exists_mem_groups shown
  obtain ⟨bound, attained⟩ := m.largestGroup_spec
  rcases attained with none' | ⟨largest, member, top⟩
  · refine Or.inl ⟨none', fun place listed => Bool.eq_false_iff.mpr fun value => ?_⟩
    obtain ⟨group, taken, held⟩ := Grid.exists_mem_groups shown (Grid.mem_places.mp listed) value
    have small : group.size ≤ 0 := none' ▸ bound group (same.mem_iff.mpr taken)
    exact absurd (List.length_pos_of_mem held) (Nat.not_lt.mpr small)
  · refine Or.inr ⟨?_, ?_⟩
    · obtain ⟨corner, column, height, width, candidate, walk⟩ :=
        Grid.exists_candidate_of_mem_groups shown (same.mem_iff.mp member)
      refine ⟨corner, column, height, width, candidate, ?_⟩
      rw [← top, Group.size, walk.length_eq, length_spanned]
    · rintro _ ⟨_, _, height, width, candidate, rfl⟩
      obtain ⟨group, taken, large, _⟩ := candidate.exists_mem_groups shown
      exact large.trans (bound group (same.mem_iff.mpr taken))

theorem exists_build_greedy_wrapped :
    let f : Expr := .binary .or (.not (.var ⟨2⟩)) (.binary .and (.var ⟨0⟩) (.var ⟨1⟩))
    let vs : List Variable := [⟨0⟩, ⟨1⟩, ⟨2⟩]
    let g := Grid.ofFunction f vs
    let square := spanned g.height g.width 0 3 2 2
    vs.Nodup ∧ LogicFunction.DependsOn f vs ∧ square = [(0, 3), (0, 0), (1, 3), (1, 0)] ∧
      g.Candidate true 0 3 2 2 ∧
      (∃ group ∈ g.groups true, 4 ≤ group.size ∧ ∃ place ∈ square, place ∈ group.places) ∧
      ∃ m, build f vs false = .ok m ∧ m.grid = g ∧ 4 ≤ m.largestGroup := by
  intro f vs g square
  have nodup : vs.Nodup := by decide
  have vars : f.vars.toList = vs := by decide
  have depends : LogicFunction.DependsOn f vs := vars ▸ f.dependsOn_vars
  have shown : g.Shows f := Grid.shows_ofFunction nodup (by decide) depends
  have value : ∀ place ∈ square, g.value place = true := by decide +kernel
  have inside : ∀ place ∈ square, place.1 < g.height ∧ place.2 < g.width := by decide +kernel
  have size : (g.cube? square).isSome = true := by decide +kernel
  obtain ⟨term, cube⟩ := Option.isSome_iff_exists.mp size
  have candidate : g.Candidate true 0 3 2 2 := {
    height_power := ⟨1, rfl⟩
    width_power := ⟨1, rfl⟩
    height_le := by decide +kernel
    width_le := by decide +kernel
    value := value
    cube := Grid.isCube_of_cube? shown (by decide +kernel) inside cube }
  obtain ⟨_, greedy, m, built, grid, _, largest⟩ :=
    exists_build_greedy f vs false nodup (by decide) (by decide) depends
  obtain ⟨group, member, large, shared⟩ := greedy true 0 3 2 2 candidate
  refine ⟨nodup, depends, by decide +kernel, candidate, ⟨group, member, large, shared⟩, m, built,
    grid, ?_⟩
  rcases largest with ⟨_, zeros⟩ | greatest
  · have corner : (0, 3) ∈ square := by decide +kernel
    have one := value _ corner
    rw [zeros (0, 3) (Grid.mem_places.mpr (inside _ corner))] at one
    cases one
  · exact greatest.2 ⟨0, 3, 2, 2, candidate, rfl⟩

end Map

end SwitchingLogic.Karnaugh
