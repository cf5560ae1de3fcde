import SwitchingLogic.Karnaugh.Map

/-!
# Numbers of groups

The groups of a map are numbered once they are sorted, and each of them leaves its number in its
cells.  A group that names a cell once leaves its number there once, so in the end a cell has the
numbers of the groups that hold it, in increasing order.
-/

namespace SwitchingLogic.Karnaugh

theorem modify_map_range {α : Type} (f : Nat → α) (change : α → α) (n place : Nat) :
    ((List.range n).map f).modify place change =
      (List.range n).map fun i => if place = i then change (f i) else f i := by
  refine List.ext_getElem? fun i => ?_
  rw [List.getElem?_modify, List.getElem?_map, List.getElem?_map]
  by_cases inside : i < n
  · rw [List.getElem?_range inside]
    rfl
  · rw [List.getElem?_eq_none (by simpa using inside)]
    rfl

/-- Marking changes the numbers of one place only. -/
theorem mark_cellsWith (g : Grid) (ids : Place → List Nat) (id : Nat) (place : Place) :
    mark id (g.cellsWith ids) place =
      g.cellsWith fun p => if place = p then ids p ++ [id] else ids p := by
  simp only [mark, Grid.cellsWith, Grid.places, Grid.rowPlaces, List.map_map, modify_map_range,
    Function.comp_def]
  refine List.map_congr_left fun row _ => ?_
  by_cases here : place.1 = row
  · rw [if_pos here]
    refine List.map_congr_left fun column _ => ?_
    by_cases there : place.2 = column
    · rw [if_pos there, if_pos (Prod.ext here there)]
    · rw [if_neg there, if_neg fun same => there (congrArg Prod.snd same)]
  · rw [if_neg here]
    refine List.map_congr_left fun column _ => ?_
    rw [if_neg fun same => here (congrArg Prod.fst same)]

theorem foldl_mark_cellsWith (g : Grid) (ids : Place → List Nat) (id : Nat) {places : List Place}
    (nodup : places.Nodup) :
    places.foldl (mark id) (g.cellsWith ids) =
      g.cellsWith fun p => if p ∈ places then ids p ++ [id] else ids p := by
  induction places generalizing ids with
  | nil => simp
  | cons place rest ih =>
      obtain ⟨fresh, nodup⟩ := List.nodup_cons.mp nodup
      rw [List.foldl_cons, mark_cellsWith, ih _ nodup]
      congr 1
      funext p
      by_cases here : place = p
      · rw [← here, if_neg fresh, if_pos rfl, if_pos List.mem_cons_self]
      · simp [here, Ne.symm here]

/-- The numbers from a first one on, of those groups that hold a place. -/
def idsFrom (id : Nat) (groups : List Group) (place : Place) : List Nat :=
  ((groups.zipIdx id).filter fun (group, _) => group.places.contains place).map (·.2)

theorem idsFrom_cons (id : Nat) (group : Group) (rest : List Group) (place : Place) :
    idsFrom id (group :: rest) place =
      if place ∈ group.places then id :: idsFrom (id + 1) rest place
      else idsFrom (id + 1) rest place := by
  simp only [idsFrom, List.zipIdx_cons, List.filter_cons, List.contains_iff_mem]
  split
  · rfl
  · rfl

theorem numberFrom_cellsWith (g : Grid) (ids : Place → List Nat) (id : Nat) {groups : List Group}
    (nodup : ∀ group ∈ groups, group.places.Nodup) :
    numberFrom id (g.cellsWith ids) groups =
      ((groups.zipIdx id).map Prod.swap,
        g.cellsWith fun place => ids place ++ idsFrom id groups place) := by
  induction groups generalizing id ids with
  | nil => simp [numberFrom, idsFrom]
  | cons group rest ih =>
      rw [numberFrom, foldl_mark_cellsWith g ids id (nodup group List.mem_cons_self),
        ih _ _ fun other member => nodup other (List.mem_cons_of_mem _ member)]
      refine congrArg (Prod.mk _) (congrArg g.cellsWith (funext fun place => ?_))
      rw [idsFrom_cons]
      split
      · exact List.append_assoc _ _ _
      · rfl

/-- The pass over the sorted groups gives the groups their places in the list as numbers, and each
cell the numbers of the groups that hold it. -/
theorem Map.numbered_eq (m : Map) (nodup : ∀ group ∈ m.groups, group.places.Nodup) :
    m.numbered = (m.groups.zipIdx.map Prod.swap, m.grid.cellsWith m.groupIds) :=
  numberFrom_cellsWith m.grid (fun _ => []) 0 nodup

end SwitchingLogic.Karnaugh
