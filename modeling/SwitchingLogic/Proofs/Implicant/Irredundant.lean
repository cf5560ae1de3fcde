import SwitchingLogic.Proofs.Implicant.Espresso

/-!
# Irredundant covers by prime implicants

A reduction drops cubes as long as the others cover them; a cube that is needed stays needed when
others go.  After the first expansion and the first reduction neither step changes anything, and
the cover that is left is an irredundant one by prime implicants.
-/

namespace SwitchingLogic.Implicant

variable {rows : List Nat} {width : Nat} {a : Implicant} {cubes kept : List Implicant}

theorem reduceFrom_sublist (kept cubes : List Implicant) :
    (reduceFrom kept cubes).Sublist (kept ++ cubes) := by
  induction cubes generalizing kept with
  | nil => exact (List.append_nil kept).symm ▸ List.Sublist.refl _
  | cons a rest ih =>
      rw [reduceFrom]
      split
      · exact (ih kept).trans ((List.sublist_cons_self a rest).append_left kept)
      · exact List.append_cons kept a rest ▸ ih (kept ++ [a])

theorem coveredBy_of_subset {others : List Implicant} (covered : a.coveredBy cubes = true)
    (inside : cubes ⊆ others) : a.coveredBy others = true := by
  rw [coveredBy, List.all_eq_true] at *
  intro row member
  obtain ⟨b, listed, covers⟩ := List.any_eq_true.mp (covered row member)
  exact List.any_eq_true.mpr ⟨b, inside listed, covers⟩

def Irredundant (cubes : List Implicant) : Prop :=
  ∀ a ∈ cubes, ¬ a.coveredBy (cubes.filter (· ≠ a)) = true

/-- What is kept is not covered by the others, and these only become fewer. -/
theorem irredundant_reduceFrom
    (needed : ∀ a ∈ kept, ¬ a.coveredBy ((kept ++ cubes).filter (· ≠ a)) = true) :
    Irredundant (reduceFrom kept cubes) := by
  induction cubes generalizing kept with
  | nil => rwa [List.append_nil] at needed
  | cons first rest ih =>
      rw [reduceFrom]
      split
      · refine ih fun a member covered => needed a member (coveredBy_of_subset covered ?_)
        exact (((List.sublist_cons_self first rest).append_left kept).filter _).subset
      · rename_i uncovered
        refine ih fun a member covered => ?_
        rw [← List.append_cons] at covered
        rcases List.mem_append.mp member with old | new
        · exact needed a old covered
        · cases List.mem_singleton.mp new
          refine uncovered (coveredBy_of_subset covered fun b listed => ?_)
          obtain ⟨inside, other⟩ := List.mem_filter.mp listed
          rw [List.mem_append, List.mem_cons] at inside
          rw [List.mem_append]
          exact inside.imp_right fun here => here.resolve_left (of_decide_eq_true other)

theorem irredundant_reduceAll (cubes : List Implicant) : Irredundant (reduceAll cubes) :=
  irredundant_reduceFrom fun _ none => (List.not_mem_nil none).elim

/-- Of a list without redundant cubes none is dropped. -/
theorem reduceFrom_eq_append (distinct : (kept ++ cubes).Nodup)
    (irredundant : Irredundant (kept ++ cubes)) : reduceFrom kept cubes = kept ++ cubes := by
  induction cubes generalizing kept with
  | nil => exact (List.append_nil kept).symm
  | cons first rest ih =>
      have uncovered : ¬ first.coveredBy (kept ++ rest) = true := by
        intro covered
        refine irredundant first (by simp) (coveredBy_of_subset covered fun b member => ?_)
        refine List.mem_filter.mpr ⟨((List.sublist_cons_self first rest).append_left kept).subset
          member, decide_eq_true ?_⟩
        rintro rfl
        exact (List.nodup_middle.mp distinct).notMem member
      rw [reduceFrom, if_neg uncovered, ih]
      · exact (List.append_cons kept first rest).symm
      · rwa [← List.append_cons]
      · rwa [← List.append_cons]

/-- What a dropped cube covers is covered by the others, kept or still to come. -/
theorem covered_reduceFrom {kept : List Implicant}
    (wfs : ∀ b ∈ cubes, b.WellFormed ∧ b.width = width) {row : Nat} (low : row < 2 ^ width)
    (covered : ∃ b ∈ kept ++ cubes, b.covers row = true) :
    ∃ b ∈ reduceFrom kept cubes, b.covers row = true := by
  induction cubes generalizing kept with
  | nil => rwa [List.append_nil] at covered
  | cons first rest ih =>
      have later : ∀ b ∈ rest, b.WellFormed ∧ b.width = width :=
        fun b member => wfs b (List.mem_cons_of_mem _ member)
      rw [reduceFrom]
      split
      · rename_i redundant
        refine ih later ?_
        obtain ⟨b, member, covers⟩ := covered
        rcases List.mem_append.mp member with early | late
        · exact ⟨b, List.mem_append_left _ early, covers⟩
        · rcases List.mem_cons.mp late with rfl | late
          · obtain ⟨wf, rfl⟩ := wfs b List.mem_cons_self
            have listed := (mem_covered wf).mpr ⟨low, covers⟩
            exact List.any_eq_true.mp (List.all_eq_true.mp redundant row listed)
          · exact ⟨b, List.mem_append_right _ late, covers⟩
      · refine ih later ?_
        rwa [← List.append_cons]

theorem IsCover.reduceAll (below : ∀ row ∈ rows, row < 2 ^ width)
    (cover : IsCover rows width cubes) : IsCover rows width (reduceAll cubes) := by
  refine ⟨fun b member => cover.implicants b ((reduceFrom_sublist [] cubes).subset member),
    fun row member => ?_⟩
  refine covered_reduceFrom (fun b listed => ?_) (below row member) (cover.covering row member)
  exact ⟨(cover.implicants b listed).wellFormed, (cover.implicants b listed).width_eq⟩

/-! ## The alternation -/

theorem nodup_reduceAll (distinct : cubes.Nodup) : (reduceAll cubes).Nodup :=
  distinct.sublist (reduceFrom_sublist [] cubes)

/-- The first reduction of the first expansion is already the result. -/
theorem espresso_eq (fits : width ≤ maxWidth) (below : ∀ row ∈ rows, row < 2 ^ width) :
    espresso rows width = reduceAll (expandRows rows width) := by
  have distinct := nodup_reduceAll (nodup_expandRows fits below)
  have again : reduceAll (expandAll (Std.HashSet.ofList rows) (reduceAll (expandRows rows width))) =
      reduceAll (expandRows rows width) := by
    rw [expandAll_of_isPrime distinct fun a member => isPrime_of_mem_expandRows fits below
      ((reduceFrom_sublist [] _).subset member)]
    exact reduceFrom_eq_append distinct (irredundant_reduceAll _)
  rw [espresso, Implicant.alternate]
  change (if (reduceAll (expandRows rows width)).length < _ then
    Implicant.alternate _ (reduceAll (expandRows rows width)) else
      reduceAll (expandRows rows width)) = _
  split
  · rw [Implicant.alternate]
    rw [again, if_neg (lt_irrefl _)]
  · rfl

/-- The result is a cover of the rows. -/
theorem isCover_espresso (fits : width ≤ maxWidth) (below : ∀ row ∈ rows, row < 2 ^ width) :
    IsCover rows width (espresso rows width) := by
  rw [espresso_eq fits below]
  exact (isCover_minterms fits below).expandAll.reduceAll below

/-! ## The cover -/

/-- The cubes cover exactly the rows of the set, they are different prime implicants of it, and
without any one of them some row is left uncovered. -/
structure IsIrredundantCover (rows : List Nat) (width : Nat) (cubes : List Implicant) : Prop where
  mem_iff : ∀ row, row ∈ rows ↔ ∃ a ∈ cubes, row ∈ a.covered
  prime : ∀ a ∈ cubes, IsPrime rows width a
  distinct : cubes.Nodup
  needed : ∀ a ∈ cubes, ∃ row ∈ rows, ∀ b ∈ cubes.erase a, b.covers row = false

theorem IsCover.mem_iff (cover : IsCover rows width cubes)
    (below : ∀ row ∈ rows, row < 2 ^ width) (row : Nat) :
    row ∈ rows ↔ ∃ a ∈ cubes, row ∈ a.covered := by
  constructor
  · intro member
    obtain ⟨a, listed, covers⟩ := cover.covering row member
    obtain ⟨wf, rfl, _⟩ := cover.implicants a listed
    exact ⟨a, listed, (mem_covered wf).mpr ⟨below row member, covers⟩⟩
  · rintro ⟨a, listed, covered⟩
    exact (isImplicant_iff_covered.mp (cover.implicants a listed)).2.2 row covered

/-- What the others do not cover of an implicant is a row of the set. -/
theorem IsImplicant.exists_uncovered (implicant : IsImplicant rows width a)
    (uncovered : ¬ a.coveredBy cubes = true) :
    ∃ row ∈ rows, ∀ b ∈ cubes, b.covers row = false := by
  simp only [coveredBy, List.all_eq_true, not_forall] at uncovered
  obtain ⟨row, covered, left⟩ := uncovered
  refine ⟨row, (isImplicant_iff_covered.mp implicant).2.2 row covered, fun b member => ?_⟩
  rw [Bool.not_eq_true, List.any_eq_false] at left
  exact Bool.eq_false_iff.mpr (left b member)

/-- The cover found by expansion and reduction is an irredundant one by prime implicants. -/
theorem isIrredundantCover_espresso (fits : width ≤ maxWidth)
    (below : ∀ row ∈ rows, row < 2 ^ width) :
    IsIrredundantCover rows width (espresso rows width) := by
  have cover := isCover_espresso fits below
  have found := espresso_eq fits below
  have prime : ∀ a ∈ espresso rows width, IsPrime rows width a := by
    rw [found]
    intro a member
    exact isPrime_of_mem_expandRows fits below ((reduceFrom_sublist [] _).subset member)
  have distinct : (espresso rows width).Nodup := by
    rw [found]
    exact nodup_reduceAll (nodup_expandRows fits below)
  refine ⟨cover.mem_iff below, prime, distinct, fun a member => ?_⟩
  have irredundant : Irredundant (espresso rows width) := by
    rw [found]
    exact irredundant_reduceAll _
  have others : (espresso rows width).erase a = (espresso rows width).filter (· ≠ a) := by
    rw [distinct.erase_eq_filter]
    exact List.filter_congr fun b _ => Bool.eq_iff_iff.mpr (by simp)
  apply (prime a member).isImplicant.exists_uncovered
  rw [others]
  exact irredundant a member

theorem espresso?_eq_some (fits : rows = [] ∨ width ≤ maxWidth) :
    espresso? rows width = some (espresso rows width) := by
  rw [espresso?, minterms?_eq_some fits]
  rfl

theorem espresso_nil (width : Nat) : espresso [] width = [] := by
  rw [espresso, distinctRows_nil, List.map_nil, Implicant.alternate]
  exact if_neg (Nat.not_lt_zero _)

theorem isIrredundantCover_nil (width : Nat) : IsIrredundantCover [] width [] := by
  refine ⟨fun row => iff_of_false List.not_mem_nil ?_, ?_, List.nodup_nil, ?_⟩
  · rintro ⟨a, listed, _⟩
    cases listed
  · intro a listed
    cases listed
  · intro a listed
    cases listed

/-- Wherever the masks have a bit for each position, and for no rows at all, a cover is found; and
it is an irredundant one by prime implicants. -/
theorem exists_irredundant_espresso (below : ∀ row ∈ rows, row < 2 ^ width)
    (fits : rows = [] ∨ width ≤ maxWidth) :
    ∃ cubes, espresso? rows width = some cubes ∧ IsIrredundantCover rows width cubes := by
  refine ⟨_, espresso?_eq_some fits, ?_⟩
  rcases fits with rfl | fits
  · rw [espresso_nil]
    exact isIrredundantCover_nil width
  · exact isIrredundantCover_espresso fits below

/-- Six rows in a ring, each in two of six prime implicants; one of the rows is listed twice. -/
theorem exists_irredundant_espresso_ring :
    (∀ row ∈ [7, 0, 1, 2, 5, 6, 1], row < 2 ^ 3) ∧ ([7, 0, 1, 2, 5, 6, 1] = [] ∨ 3 ≤ maxWidth) ∧
      ∃ cubes, espresso? [7, 0, 1, 2, 5, 6, 1] 3 = some cubes ∧
        IsIrredundantCover [7, 0, 1, 2, 5, 6, 1] 3 cubes := by
  have below : ∀ row ∈ [7, 0, 1, 2, 5, 6, 1], row < 2 ^ 3 := by decide
  have fits : [7, 0, 1, 2, 5, 6, 1] = [] ∨ 3 ≤ maxWidth := Or.inr (by decide)
  exact ⟨below, fits, exists_irredundant_espresso below fits⟩

/-- The bit behind the masks is free in every cube. -/
theorem two_pow_mem_covered (wide : a.width = maxWidth + 1) (member : 0 ∈ a.covered) :
    2 ^ maxWidth ∈ a.covered := by
  have unmasked : a.care.getLsbD maxWidth = false := BitVec.getLsbD_of_ge _ _ le_rfl
  rw [covered, wide, coveredBelow, unmasked, if_neg Bool.false_ne_true, List.mem_append,
    List.mem_map, Nat.one_shiftLeft] at member ⊢
  rcases member with low | ⟨row, _, sum⟩
  · exact Or.inr ⟨0, low, rfl⟩
  · have positive := Nat.two_pow_pos maxWidth
    omega

/-- With one position more than the masks have bits, the first row has no cube, and so no cover is
found for it.  No cubes of this width cover just that row. -/
theorem espresso?_beyond_masks :
    (∀ row ∈ [0], row < 2 ^ 33) ∧ espresso? [0] 33 = none ∧
      ¬ ∃ cubes : List Implicant, (∀ a ∈ cubes, a.width = 33) ∧
        ∀ row, row ∈ [0] ↔ ∃ a ∈ cubes, row ∈ a.covered := by
  refine ⟨by decide, ?_, ?_⟩
  · rw [espresso?, minterms?_eq_none (List.mem_singleton_self 0) (by decide)]
    rfl
  · rintro ⟨cubes, wide, exactly⟩
    obtain ⟨a, listed, covered⟩ := (exactly 0).mp (List.mem_singleton_self 0)
    have other := (exactly (2 ^ 32)).mpr ⟨a, listed, two_pow_mem_covered (wide a listed) covered⟩
    exact absurd (List.mem_singleton.mp other) (by decide)

end SwitchingLogic.Implicant
