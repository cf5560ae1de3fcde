import SwitchingLogic.Proofs.Error.Results
import SwitchingLogic.Proofs.Implicant.Hull
import SwitchingLogic.Proofs.Implicant.Products
import SwitchingLogic.Proofs.Karnaugh.Grid
import SwitchingLogic.Proofs.Karnaugh.Numbering
import SwitchingLogic.Proofs.Karnaugh.Rectangle

/-!
# Groups of cells

While the rectangles are gone through, the groups stay cubes of free cells that share no cell.  In
the end every cell of the value is in a group, since single cells come last.  The term of a group
holds in the states of its cells only, so that the groups of the ones make up the function, and
those of the zeros its negation.
-/

namespace SwitchingLogic.Karnaugh

namespace Grid

variable {α : Type} [LogicFunction α] {f : α} {g : Grid} {target : Bool} {groups : List Group}
  {places : List Place} {place : Place}

/-! ## Cubes of cells -/

theorem Shows.fits (shown : g.Shows f) : g.vars.length ≤ Implicant.maxWidth :=
  shown.short.trans (by decide)

theorem length_of_cube? {term : Term} (cube : g.cube? places = some term) :
    ∃ k, places.length = 2 ^ k := by
  rw [cube?] at cube
  split at cube
  · rename_i size
    exact ⟨_, size.trans (Nat.one_shiftLeft _)⟩
  · cases cube

/-- The term of a cube of cells holds in the states of these cells. -/
theorem containsState_of_cube? (shown : g.Shows f) (nodup : places.Nodup)
    (inside : ∀ place ∈ places, g.Inside place) {term : Term}
    (cube : g.cube? places = some term) (here : g.Inside place) {s : State}
    (row : s.toIndex g.vars = g.minterm place) :
    term.containsState s = true ↔ place ∈ places := by
  rw [cube?] at cube
  split at cube
  · rename_i size
    cases cube
    rw [Nat.one_shiftLeft] at size
    obtain ⟨corner, member⟩ := List.exists_mem_of_length_pos (size ▸ Nat.two_pow_pos _)
    have wf := Implicant.wellFormed_hull shown.fits (List.mem_map_of_mem (f := g.minterm) member)
    have rows : (places.map g.minterm).Nodup := nodup.map_on fun first first' second second' same =>
      shown.minterm_inj first second (inside first first') (inside second second') same
    have covered : ∀ row ∈ places.map g.minterm, row < 2 ^ g.vars.length ∧
        (Implicant.hull (places.map g.minterm) g.vars.length).covers row = true := by
      intro row member
      obtain ⟨other, listed, rfl⟩ := List.mem_map.mp member
      exact ⟨shown.minterm_lt other (inside other listed), Implicant.covers_hull shown.fits member⟩
    have hull := Implicant.mem_iff_covers wf rows covered
      ((List.length_map _).trans size) (shown.minterm_lt place here)
    have value := Implicant.eval_toProduct wf shown.nodup rfl s
    rw [Implicant.toProduct, Term.eval_toProduct, row] at value
    rw [value, ← hull, List.mem_map]
    constructor
    · rintro ⟨other, listed, same⟩
      exact shown.minterm_inj other place (inside other listed) here same ▸ listed
    · intro listed
      exact ⟨place, listed, rfl⟩
  · cases cube

theorem isSome_cube?_singleton (shown : g.Shows f) (place : Place) :
    ∃ term, g.cube? [place] = some term := by
  have full : (Implicant.minterm (g.minterm place) g.vars.length).literalCount = g.vars.length :=
    Implicant.literalCount_minterm _ shown.fits
  rw [cube?, List.map_singleton, Implicant.hull_singleton shown.fits, full, Nat.sub_self]
  exact ⟨_, if_pos rfl⟩

/-! ## Groups -/

/-- The groups are cubes of cells of one value, and no two of them share a cell. -/
structure Grouped (g : Grid) (target : Bool) (groups : List Group) : Prop where
  nodup : ∀ group ∈ groups, group.places.Nodup
  inside : ∀ group ∈ groups, ∀ place ∈ group.places, g.Inside place
  value : ∀ group ∈ groups, ∀ place ∈ group.places, g.value place = target
  cube : ∀ group ∈ groups, g.cube? group.places = some group.term
  disjoint : groups.Pairwise fun a b => ∀ place ∈ a.places, place ∉ b.places

theorem isFree_iff :
    g.isFree target groups place = true ↔
      g.value place = target ∧ ∀ group ∈ groups, place ∉ group.places := by
  simp [isFree]

/-- A rectangle cannot be taken: one of its cells is not free, or they form no cube. -/
def Refuses (g : Grid) (target : Bool) (groups : List Group) (places : List Place) : Prop :=
  (∃ place ∈ places, g.isFree target groups place = false) ∨ g.cube? places = none

/-- A rectangle becomes the last group, or the groups stay as they are. -/
theorem addGroup_cases (g : Grid) (target : Bool) (groups : List Group) (places : List Place) :
    (∃ term, g.cube? places = some term ∧
      (∀ place ∈ places, g.isFree target groups place = true) ∧
        g.addGroup target groups places = groups ++ [⟨places, term⟩]) ∨
      g.Refuses target groups places ∧ g.addGroup target groups places = groups := by
  rw [addGroup]
  by_cases free : places.all (g.isFree target groups) = true
  · rw [if_pos free]
    cases cube : g.cube? places with
    | none => exact Or.inr ⟨Or.inr cube, rfl⟩
    | some term => exact Or.inl ⟨term, rfl, List.all_eq_true.mp free, rfl⟩
  · rw [if_neg free]
    rw [Bool.not_eq_true, List.all_eq_false] at free
    obtain ⟨place, member, taken⟩ := free
    exact Or.inr ⟨Or.inl ⟨place, member, Bool.not_eq_true _ ▸ taken⟩, rfl⟩

theorem Grouped.addGroup (grouped : g.Grouped target groups) (nodup : places.Nodup)
    (inside : ∀ place ∈ places, g.Inside place) :
    g.Grouped target (g.addGroup target groups places) := by
  rcases g.addGroup_cases target groups places with ⟨term, cube, free, taken⟩ | ⟨_, same⟩
  · simp only [isFree_iff] at free
    have both {p : Group → Prop} (old : ∀ group ∈ groups, p group) (new : p ⟨places, term⟩) :
        ∀ group ∈ groups ++ [⟨places, term⟩], p group := by
      intro group member
      obtain member | member := List.mem_append.mp member
      · exact old group member
      · exact List.mem_singleton.mp member ▸ new
    rw [taken]
    exact {
      nodup := both grouped.nodup nodup
      inside := both grouped.inside inside
      value := both grouped.value fun place member => (free place member).1
      cube := both grouped.cube cube
      disjoint := List.pairwise_append.mpr ⟨grouped.disjoint, List.pairwise_singleton _ _,
        fun group member other new place listed => by
          rw [List.mem_singleton.mp new]
          exact fun taken => (free place taken).2 group member listed⟩ }
  · rwa [same]

theorem subset_addGroup (g : Grid) (target : Bool) (groups : List Group) (places : List Place) :
    groups ⊆ g.addGroup target groups places := by
  rcases g.addGroup_cases target groups places with ⟨_, _, _, taken⟩ | ⟨_, same⟩
  · rw [taken]
    exact List.subset_append_left _ _
  · rw [same]
    exact List.Subset.refl _

/-- A group that has been taken stays. -/
theorem subset_foldl_addGroup (g : Grid) (target : Bool) (groups : List Group)
    (rectangles : List (List Place)) : groups ⊆ rectangles.foldl (g.addGroup target) groups :=
  List.foldlRecOn (motive := fun taken : List Group => groups ⊆ taken) rectangles _
    (List.Subset.refl groups) fun taken kept places _ =>
      List.Subset.trans kept (g.subset_addGroup target taken places)

theorem inside_of_mem_rectangles (member : places ∈ rectangles g.height g.width)
    (listed : place ∈ places) : g.Inside place := by
  obtain ⟨top, _, left, _, height, width, _, rfl⟩ := mem_rectangles.mp member
  obtain ⟨row, column⟩ := mem_rectangle.mp listed
  exact ⟨(mem_arc.mp row).1, (mem_arc.mp column).1⟩

theorem grouped_groups (g : Grid) (target : Bool) : g.Grouped target (g.groups target) := by
  have start : g.Grouped target [] := ⟨nofun, nofun, nofun, nofun, List.Pairwise.nil⟩
  rw [groups]
  refine List.foldlRecOn (rectangles g.height g.width) _ start fun taken grouped places member => ?_
  have nodup : places.Nodup := by
    obtain ⟨top, _, left, _, height, width, _, rfl⟩ := mem_rectangles.mp member
    exact nodup_rectangle top left height width
  exact grouped.addGroup nodup fun place listed => inside_of_mem_rectangles member listed

theorem places_mem_of_mem_foldl {rectangles : List (List Place)} {group : Group}
    (member : group ∈ rectangles.foldl (g.addGroup target) []) : group.places ∈ rectangles := by
  revert group
  refine List.foldlRecOn
    (motive := fun taken : List Group => ∀ {group}, group ∈ taken → group.places ∈ rectangles)
    rectangles _ (fun none' => (List.not_mem_nil none').elim) fun taken old places listed group
      member => ?_
  rcases g.addGroup_cases target taken places with ⟨term, _, _, grown⟩ | ⟨_, same⟩
  · rw [grown, List.mem_append, List.mem_singleton] at member
    obtain member | rfl := member
    · exact old member
    · exact listed
  · exact old (same ▸ member)

/-- A cube of cells of the value is taken, or a group that is as large at least has one of its
cells: what stands in its way has been taken before. -/
theorem exists_mem_groups_of_cube? {term : Term} (member : places ∈ rectangles g.height g.width)
    (value : ∀ place ∈ places, g.value place = target) (cube : g.cube? places = some term) :
    ∃ group ∈ g.groups target, places.length ≤ group.size ∧
      ∃ place ∈ places, place ∈ group.places := by
  obtain ⟨front, back, split⟩ := List.append_of_mem member
  have sorted := pairwise_rectangles g.height g.width
  rw [split, List.pairwise_append] at sorted
  have large {group : Group} (earlier : group ∈ front.foldl (g.addGroup target) []) :
      places.length ≤ group.size :=
    sorted.2.2 _ (places_mem_of_mem_foldl earlier) places List.mem_cons_self
  have here : ∃ group ∈ g.addGroup target (front.foldl (g.addGroup target) []) places,
      places.length ≤ group.size ∧ ∃ place ∈ places, place ∈ group.places := by
    rcases g.addGroup_cases target (front.foldl (g.addGroup target) []) places with
      ⟨term', _, _, taken⟩ | ⟨⟨place, listed, blocked⟩ | none', same⟩
    · obtain ⟨k, size⟩ := length_of_cube? cube
      obtain ⟨corner, first⟩ := List.exists_mem_of_length_pos (size ▸ Nat.two_pow_pos k)
      rw [taken]
      exact ⟨_, List.mem_append_right _ (List.mem_singleton_self _), le_rfl, corner, first, first⟩
    · rw [← Bool.not_eq_true, isFree_iff, and_iff_right (value place listed)] at blocked
      simp only [not_forall, not_not] at blocked
      obtain ⟨group, earlier, held⟩ := blocked
      rw [same]
      exact ⟨group, earlier, large earlier, place, listed, held⟩
    · rw [none'] at cube
      cases cube
  obtain ⟨group, taken, found⟩ := here
  rw [groups, split, List.foldl_append, List.foldl_cons]
  exact ⟨group, g.subset_foldl_addGroup target _ back taken, found⟩

theorem exists_mem_groups (shown : g.Shows f) (here : g.Inside place)
    (value : g.value place = target) : ∃ group ∈ g.groups target, place ∈ group.places := by
  obtain ⟨term, cube⟩ := isSome_cube?_singleton shown place
  have only : ∀ other ∈ [place], g.value other = target := fun other listed =>
    List.mem_singleton.mp listed ▸ value
  obtain ⟨group, member, _, other, listed, held⟩ :=
    exists_mem_groups_of_cube? (singleton_mem_rectangles here.1 here.2) only cube
  exact ⟨group, member, List.mem_singleton.mp listed ▸ held⟩

/-- Of groups that share no cell, a cell is in one at most. -/
theorem Grouped.countP_le_one (grouped : g.Grouped target groups) (place : Place) :
    groups.countP (·.places.contains place) ≤ 1 := by
  have apart := grouped.disjoint
  clear grouped
  induction groups with
  | nil => exact Nat.zero_le 1
  | cons group rest ih =>
      obtain ⟨first, apart⟩ := List.pairwise_cons.mp apart
      rw [List.countP_cons]
      split
      · rename_i holds
        have others : rest.countP (·.places.contains place) = 0 := by
          rw [List.countP_eq_zero]
          intro other member taken
          exact first other member place (List.contains_iff_mem.mp holds)
            (List.contains_iff_mem.mp taken)
        rw [others]
      · exact ih apart

/-- A cell of the value is in one group, and the other cells are in none. -/
theorem countP_groups (shown : g.Shows f) (here : g.Inside place) :
    (g.groups target).countP (·.places.contains place) =
      if g.value place = target then 1 else 0 := by
  have grouped := g.grouped_groups target
  split
  · rename_i value
    obtain ⟨group, member, listed⟩ := exists_mem_groups shown here value
    have positive : 0 < (g.groups target).countP (·.places.contains place) :=
      List.countP_pos_iff.mpr ⟨group, member, List.contains_iff_mem.mpr listed⟩
    exact le_antisymm (grouped.countP_le_one place) positive
  · rename_i other
    rw [List.countP_eq_zero]
    intro group member holds
    exact other (grouped.value group member place (List.contains_iff_mem.mp holds))

/-- The term of a group holds in a state when the cell of the state is in the group. -/
theorem containsState_groups (shown : g.Shows f) {group : Group} (member : group ∈ g.groups target)
    (here : g.Inside place) {s : State} (row : s.toIndex g.vars = g.minterm place) :
    group.term.containsState s = group.places.contains place := by
  have grouped := g.grouped_groups target
  rw [Bool.eq_iff_iff, List.contains_iff_mem]
  exact containsState_of_cube? shown (grouped.nodup group member) (grouped.inside group member)
    (grouped.cube group member) here row

theorem Shows.exists_place (shown : g.Shows f) (s : State) :
    ∃ place, g.Inside place ∧ s.toIndex g.vars = g.minterm place ∧
      g.value place = LogicFunction.eval f s := by
  have short : g.vars.length ≤ 64 := shown.short.trans (by decide)
  obtain ⟨place, here, row⟩ := shown.exists_minterm _ (s.toIndex_lt short)
  refine ⟨place, here, row.symm, ?_⟩
  rw [shown.value_eq place here, state, row]
  exact TruthTable.eval_ofIndex_toIndex shown.depends shown.nodup short s

/-- The terms of the groups count one in the states of the value and none elsewhere. -/
theorem countP_containsState (shown : g.Shows f) (s : State) :
    (g.groups target).countP (fun group => group.term.containsState s) =
      if LogicFunction.eval f s = target then 1 else 0 := by
  obtain ⟨place, here, row, value⟩ := shown.exists_place s
  rw [← value, ← countP_groups shown here]
  exact List.countP_congr fun group member => by rw [containsState_groups shown member here row]

theorem any_containsState (shown : g.Shows f) (s : State) :
    (g.groups target).any (fun group => group.term.containsState s) =
      (LogicFunction.eval f s == target) := by
  have count : (g.groups target).countP (fun group => group.term.containsState s) =
      if LogicFunction.eval f s = target then 1 else 0 := countP_containsState shown s
  rw [Bool.eq_iff_iff, List.any_eq_true, ← List.countP_pos_iff, count, beq_iff_eq]
  split
  · rename_i value
    exact iff_of_true Nat.one_pos value
  · rename_i other
    exact iff_of_false (Nat.lt_irrefl 0) other

end Grid

namespace Map

/-- The numbers of the groups that hold a cell: as many as there are such groups. -/
theorem length_groupIds (m : Map) (place : Place) :
    (m.groupIds place).length = m.groups.countP (·.places.contains place) := by
  rw [groupIds, List.length_map, ← List.countP_eq_length_filter]
  conv_rhs => rw [← List.zipIdx_map_fst 0 m.groups, List.countP_map]
  rfl

theorem mem_groupIds {m : Map} {place : Place} {id : Nat} :
    id ∈ m.groupIds place ↔ ∃ group, m.groups[id]? = some group ∧ place ∈ group.places := by
  simp only [groupIds, List.mem_map, List.mem_filter, Prod.exists,
    List.mk_mem_zipIdx_iff_getElem?, List.contains_iff_mem]
  constructor
  · rintro ⟨group, place', ⟨found, listed⟩, rfl⟩
    exact ⟨group, found, listed⟩
  · rintro ⟨group, found, listed⟩
    exact ⟨group, id, ⟨found, listed⟩, rfl⟩

/-- A map shows a function: its cells are the states of its variables, each one of the cells that
are true lies in one group, and the groups are products that are true on their cells only.  The
numbers of the groups of a cell are those with which the groups mark it. -/
structure Exact {α : Type} [LogicFunction α] (m : Map) (f : α) : Prop where
  cell : ∀ s, ∃ place ∈ m.grid.places.flatten, m.grid.value place = LogicFunction.eval f s ∧
    ∀ v ∈ m.grid.vars, (m.grid.state place).isActive v = s.isActive v
  numbered : m.numbered = (m.groups.zipIdx.map Prod.swap, m.grid.cellsWith m.groupIds)
  ones : ∀ place ∈ m.grid.places.flatten, m.grid.value place = true →
    m.groups.countP (·.places.contains place) = 1 ∧
      ∃ id group, m.groupIds place = [id] ∧ m.groups[id]? = some group ∧ place ∈ group.places
  zeros : ∀ place ∈ m.grid.places.flatten, m.grid.value place = false →
    m.groupIds place = [] ∧ ∀ group ∈ m.groups, place ∉ group.places
  cells : ∀ group ∈ m.groups, group.places.Nodup ∧
    ∀ place ∈ group.places, place ∈ m.grid.places.flatten ∧ m.grid.value place = true
  size : ∀ group ∈ m.groups, ∃ k, group.size = 2 ^ k
  product : ∀ group ∈ m.groups, ∀ place ∈ m.grid.places.flatten,
    (group.product.eval (m.grid.state place) = true ↔ place ∈ group.places)
  states : ∀ s, LogicFunction.eval f s = true →
    m.groups.countP (fun group => group.product.eval s) = 1
  sum : ∀ s, m.sumOfProducts.eval s = LogicFunction.eval f s

variable {α : Type} [LogicFunction α] {f : α} {m : Map}

theorem exact_of_perm (shown : m.grid.Shows f) (same : m.groups.Perm (m.grid.groups true))
    (sum : m.sumOfProducts = Expr.disj (m.groups.map Group.product)) : m.Exact f := by
  have short : m.grid.vars.length ≤ 64 := shown.short.trans (by decide)
  have grouped := m.grid.grouped_groups true
  have count {place : Place} (here : m.grid.Inside place) :
      m.groups.countP (·.places.contains place) = if m.grid.value place = true then 1 else 0 :=
    (same.countP_eq _).trans (Grid.countP_groups shown here)
  have product (group : Group) (s : State) : group.product.eval s = group.term.containsState s :=
    Term.eval_toProduct _ s
  refine {
    cell := fun s => ?_
    numbered := m.numbered_eq fun group member => grouped.nodup group (same.mem_iff.mp member)
    ones := fun place listed value => ?_
    zeros := fun place listed value => ?_
    cells := fun group member => ?_
    size := fun group member => Grid.length_of_cube? (grouped.cube group (same.mem_iff.mp member))
    product := fun group member place listed => ?_
    states := fun s value => ?_
    sum := fun s => ?_ }
  · obtain ⟨place, here, row, value⟩ := shown.exists_place s
    refine ⟨place, Grid.mem_places.mpr here, value, fun v listed => ?_⟩
    rw [Grid.state, ← row]
    exact s.isActive_ofIndex_toIndex shown.nodup short listed
  · have once := count (Grid.mem_places.mp listed)
    rw [if_pos value] at once
    obtain ⟨id, ids⟩ := List.length_eq_one_iff.mp ((m.length_groupIds place).trans once)
    obtain ⟨group, found, held⟩ := mem_groupIds.mp (ids ▸ List.mem_singleton_self id)
    exact ⟨once, id, group, ids, found, held⟩
  · have never := count (Grid.mem_places.mp listed)
    rw [if_neg (Bool.not_eq_true _ ▸ value)] at never
    refine ⟨List.length_eq_zero_iff.mp ((m.length_groupIds place).trans never), ?_⟩
    intro group member held
    exact List.countP_eq_zero.mp never group member (List.contains_iff_mem.mpr held)
  · have taken := same.mem_iff.mp member
    exact ⟨grouped.nodup group taken, fun place held =>
      ⟨Grid.mem_places.mpr (grouped.inside group taken place held),
        grouped.value group taken place held⟩⟩
  · have here := Grid.mem_places.mp listed
    have row : (m.grid.state place).toIndex m.grid.vars = m.grid.minterm place :=
      State.toIndex_ofIndex shown.nodup short (shown.minterm_lt place here)
    rw [product, Grid.containsState_groups shown (same.mem_iff.mp member) here row,
      List.contains_iff_mem]
  · simp only [product]
    rw [same.countP_eq, Grid.countP_containsState shown, if_pos value]
  · rw [sum, Expr.eval_disj, List.any_map, same.any_eq]
    simp only [Function.comp_def, product]
    rw [Grid.any_containsState shown]
    exact beq_true _

/-- The map of a function over two to six variables is exact, and the product of sums, if it is
asked for, has the value of the function as well. -/
theorem exists_build_eq (f : α) (vs : List Variable) (includePos : Bool) (nodup : vs.Nodup)
    (several : 2 ≤ vs.length) (short : vs.length ≤ 6) (depends : LogicFunction.DependsOn f vs) :
    ∃ m, build f vs includePos = .ok m ∧ m.grid.vars = vs ∧ m.Exact f ∧
      (includePos = true →
        ∃ pos, m.productOfSums? = some pos ∧ ∀ s, pos.eval s = LogicFunction.eval f s) := by
  have shown := Grid.shows_ofFunction nodup short depends
  have size : dimensions vs.length =
      .ok (1 <<< (axisBits vs.length).1, 1 <<< (axisBits vs.length).2) :=
    if_neg (by omega)
  refine ⟨_, Error.bind_eq_ok_iff.mpr ⟨_, size, rfl⟩, rfl,
    exact_of_perm shown (List.mergeSort_perm _ _) rfl, fun asked => ?_⟩
  refine ⟨_, if_pos asked, fun s => ?_⟩
  have clause (group : Group) : group.clause.eval s = !group.term.containsState s := by
    rw [Group.clause, Term.eval_toSum, Term.negateAll_negateAll]
  rw [Expr.eval_conj, List.all_map]
  simp only [Function.comp_def, clause]
  rw [← List.not_any_eq_all_not, Grid.any_containsState shown]
  cases LogicFunction.eval f s <;> rfl

theorem exists_build_eq_joined :
    let f : Expr := .binary .or (.var ⟨0⟩) (.not (.var ⟨1⟩))
    [(⟨0⟩ : Variable), ⟨1⟩].Nodup ∧ LogicFunction.DependsOn f [⟨0⟩, ⟨1⟩] ∧
      ∃ m, build f [⟨0⟩, ⟨1⟩] true = .ok m ∧ m.Exact f ∧
        ∃ pos, m.productOfSums? = some pos ∧
          ∀ s, pos.eval s = (s.isActive ⟨0⟩ || !s.isActive ⟨1⟩) := by
  intro f
  have nodup : [(⟨0⟩ : Variable), ⟨1⟩].Nodup := by decide
  have vars : f.vars.toList = [⟨0⟩, ⟨1⟩] := by decide
  have depends : LogicFunction.DependsOn f [⟨0⟩, ⟨1⟩] := vars ▸ f.dependsOn_vars
  obtain ⟨m, built, _, exact', pos⟩ :=
    exists_build_eq f [⟨0⟩, ⟨1⟩] true nodup (by decide) (by decide) depends
  exact ⟨nodup, depends, m, built, exact', pos rfl⟩

end Map

end SwitchingLogic.Karnaugh
