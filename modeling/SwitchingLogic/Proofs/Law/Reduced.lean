import SwitchingLogic.Proofs.Expr.Balance
import SwitchingLogic.Proofs.Law.Chain
import SwitchingLogic.Proofs.Lists.Distinct

/-!
# Reduced expressions

An expression is reduced when no law has anything to do in it.  A round of the laws on a chain of
settled operands leaves a chain on which no law fires: what stays is neither constant nor repeated,
no two of the operands are negations of each other, and absorption removes one of any two operands
of which one has all the parts of the other.
-/

namespace SwitchingLogic.Law

/-- Two operands of a chain that no law relates: they differ, neither is the negation of the other
one, and neither has all the parts of the other one. -/
structure Unrelated (op : Connective) (e f : Expr) : Prop where
  differ : e ≠ f
  unopposed : e.isNegationOf f = false
  notIncluded : ¬ e.operands op.dual ⊆ f.operands op.dual
  notIncluding : ¬ f.operands op.dual ⊆ e.operands op.dual

/-- No constant occurs, no double negation, and no chain with operands that a law relates. -/
def Reduced : Expr → Prop
  | .var _ => True
  | .const _ => False
  | .not e => Reduced e ∧ ∀ inner, e ≠ .not inner
  | .binary op l r =>
      Reduced l ∧ Reduced r ∧ ((Expr.binary op l r).operands op).Pairwise (Unrelated op)

def Settled (e : Expr) : Prop := Reduced e ∨ ∃ b, e = .const b

/-- A list of operands on which no law fires: there are no constants among them, and no law
relates two of them. -/
structure Tidy (op : Connective) (es : List Expr) : Prop where
  notConst : ∀ e ∈ es, ∀ b, e ≠ .const b
  unrelated : es.Pairwise (Unrelated op)

/-- A chain is reduced when its operands are reduced and unrelated. -/
theorem reduced_iff_operands (op : Connective) (e : Expr) :
    Reduced e ↔ (∀ f ∈ e.operands op, Reduced f) ∧ (e.operands op).Pairwise (Unrelated op) := by
  induction e using Expr.chain_induction op with
  | other e root =>
      rw [Expr.operands_eq_singleton root]
      simp
  | chain l r ihl ihr =>
      rw [Reduced, ihl, ihr, Expr.operands_binary, List.pairwise_append]
      simp only [List.mem_append, or_imp, forall_and]
      constructor
      · rintro ⟨⟨left, _⟩, ⟨right, _⟩, pairs⟩
        exact ⟨⟨left, right⟩, pairs⟩
      · rintro ⟨⟨left, right⟩, pairs⟩
        exact ⟨⟨left, pairs.1⟩, ⟨right, pairs.2.1⟩, pairs⟩

theorem Reduced.tidy {e : Expr} (reduced : Reduced e) (op : Connective) :
    Tidy op (e.operands op) := by
  obtain ⟨parts, unrelated⟩ := (reduced_iff_operands op e).mp reduced
  refine ⟨fun f member b constant => ?_, unrelated⟩
  have part := parts f member
  rw [constant] at part
  exact part

/-- Operands that are not chains themselves are joined to a reduced chain. -/
theorem settled_join {op : Connective} {es : List Expr} (settled : ∀ e ∈ es, Settled e)
    (single : ∀ e ∈ es, e.connective? ≠ some op) (tidy : Tidy op es) :
    Settled (Expr.join op es) := by
  by_cases none : es = []
  · subst none
    rw [Expr.join]
    exact Or.inr ⟨_, rfl⟩
  · have same : (Expr.join op es).operands op = es := by
      have alone : es.flatMap (Expr.operands op) = es.flatMap ([·]) :=
        List.flatMap_congr fun e member => Expr.operands_eq_singleton (single e member)
      rw [Expr.operands_join op none, alone, List.flatMap_singleton']
    left
    rw [reduced_iff_operands op, same]
    refine ⟨fun e member => ?_, tidy.unrelated⟩
    rcases settled e member with reduced | ⟨b, constant⟩
    · exact reduced
    · exact absurd constant (tidy.notConst e member b)

theorem Chain.operands_shrink {c : Chain} {op : Connective} {law : Law} {es : List Expr}
    (part : es.Sublist c.operands) : (c.shrink op law es).operands = es := by
  unfold Chain.shrink
  split
  · rfl
  · rename_i none
    exact (part.eq_of_length_le (Nat.le_of_not_lt none)).symm

theorem Chain.steps_shrink {c : Chain} {op : Connective} {law : Law} {es : List Expr}
    (part : es.Sublist c.operands) :
    (c.shrink op law es).steps = [] ↔ c.steps = [] ∧ es = c.operands := by
  unfold Chain.shrink
  split
  · rename_i fewer
    refine iff_of_false (by simp) ?_
    rintro ⟨_, rfl⟩
    exact lt_irrefl _ fewer
  · rename_i none
    exact (and_iff_left (part.eq_of_length_le (Nat.le_of_not_lt none))).symm

/-- The operands that are neither neutral nor repeated. -/
def distinct (op : Connective) (es : List Expr) : List Expr := (withoutIdentity op es).eraseDups

theorem distinct_sublist (op : Connective) (es : List Expr) : (distinct op es).Sublist es :=
  (eraseDups_sublist _).trans List.filter_sublist

theorem map_fst_zip_parts (op : Connective) (es : List Expr) :
    (es.zip (es.map (Expr.operands op)).zipIdx).map Prod.fst = es :=
  List.map_fst_zip (by simp)

theorem survivors_sublist (op : Connective) (es : List Expr) : (survivors op es).Sublist es := by
  have part : (survivors op es).Sublist
      ((es.zip (es.map (Expr.operands op.dual)).zipIdx).map Prod.fst) :=
    List.filter_sublist.map Prod.fst
  rwa [map_fst_zip_parts] at part

/-- What a round of the laws does to a chain: the absorbing constant or a complementary pair
decides it, and otherwise those operands are left that are not neutral, repeated or absorbed. -/
theorem applyToChain_cases (op : Connective) (es : List Expr) :
    (((.const op.annihilator) ∈ es ∨ hasComplement (distinct op es) = true) ∧
      (applyToChain op es).result? = some (.const op.annihilator)) ∨
    ((.const op.annihilator) ∉ es ∧ hasComplement (distinct op es) = false ∧
      if survivors op (distinct op es) = es then applyToChain op es = .unchanged
      else (applyToChain op es).result? = some (Expr.join op (survivors op (distinct op es)))) := by
  have first : (withoutIdentity op es).Sublist es := List.filter_sublist
  have second := eraseDups_sublist (Chain.neutral op es).operands
  have third := survivors_sublist op (Chain.single op es).operands
  have left : (Chain.single op es).operands = distinct op es :=
    (Chain.operands_shrink second).trans (congrArg _ (Chain.operands_shrink first))
  have last : (Chain.least op es).operands = survivors op (distinct op es) :=
    (Chain.operands_shrink third).trans (congrArg _ left)
  have none : (Chain.least op es).steps.isEmpty = true ↔
      survivors op (distinct op es) = es := by
    rw [List.isEmpty_iff, Chain.least, Chain.steps_shrink third, Chain.single,
      Chain.steps_shrink second, Chain.neutral, Chain.steps_shrink first, ← Chain.neutral,
      ← Chain.single, left, Chain.neutral, Chain.operands_shrink first]
    constructor
    · rintro ⟨⟨⟨_, all⟩, new⟩, kept⟩
      exact kept.trans (new.trans all)
    · intro same
      have back := survivors_sublist op (distinct op es)
      rw [same] at back
      have whole : distinct op es = es := (distinct_sublist op es).antisymm back
      have all : withoutIdentity op es = es :=
        first.antisymm (back.trans (eraseDups_sublist (withoutIdentity op es)))
      exact ⟨⟨⟨rfl, all⟩, whole.trans all.symm⟩, same.trans whole.symm⟩
  rw [applyToChain_eq, left, last]
  by_cases null : es.contains (.const op.annihilator) = true
  · rw [if_pos null]
    exact Or.inl ⟨Or.inl (List.contains_iff_mem.mp null), rfl⟩
  · rw [if_neg null]
    rw [List.contains_iff_mem] at null
    by_cases opposed : hasComplement (distinct op es) = true
    · rw [if_pos opposed]
      exact Or.inl ⟨Or.inr opposed, rfl⟩
    · rw [if_neg opposed]
      refine Or.inr ⟨null, Bool.eq_false_iff.mpr opposed, ?_⟩
      by_cases same : survivors op (distinct op es) = es
      · rw [if_pos same, if_pos (none.mpr same)]
      · rw [if_neg same, if_neg fun empty => same (none.mp empty)]

theorem hasComplement_eq_false_iff {es : List Expr} :
    hasComplement es = false ↔ es.Pairwise fun e f => e.isNegationOf f = false := by
  induction es with
  | nil => simp [hasComplement]
  | cons e rest ih =>
      rw [hasComplement, Bool.or_eq_false_iff, ih, List.pairwise_cons, List.any_eq_false]
      simp only [Bool.not_eq_true]

theorem of_mem_zip_parts {op : Connective} {es : List Expr} {t : Expr × List Expr × Nat}
    (member : t ∈ es.zip (es.map (Expr.operands op)).zipIdx) :
    es[t.2.2]? = some t.1 ∧ t.1.operands op = t.2.1 := by
  obtain ⟨place, inside, rfl⟩ := List.getElem_of_mem member
  have low : place < es.length := by simpa using inside
  simp [low]

/-- Of two survivors neither has all the parts of the other one. -/
theorem pairwise_survivors (op : Connective) (es : List Expr) :
    (survivors op es).Pairwise fun e f =>
      ¬ e.operands op.dual ⊆ f.operands op.dual ∧ ¬ f.operands op.dual ⊆ e.operands op.dual := by
  have places : (es.zip (es.map (Expr.operands op.dual)).zipIdx).Pairwise
      fun s t => s.2.2 < t.2.2 := by
    rw [List.pairwise_iff_getElem]
    intro i j _ _ before
    simpa using before
  rw [survivors, List.pairwise_map]
  refine (places.filter _).imp_of_mem ?_
  intro s t first second before
  obtain ⟨listed, free⟩ := List.mem_filter.mp first
  obtain ⟨listed', free'⟩ := List.mem_filter.mp second
  rw [Bool.not_eq_true', List.any_eq_false] at free free'
  have forth := free' s.2 (List.of_mem_zip listed).2
  have back := free t.2 (List.of_mem_zip listed').2
  rw [(of_mem_zip_parts listed).2, (of_mem_zip_parts listed').2]
  simp only [absorbs, Bool.and_eq_true, Bool.or_eq_true, bne_iff_ne, decide_eq_true_eq,
    Bool.not_eq_true', ← Bool.not_eq_true, included_iff, not_and, not_or, not_not] at forth back
  have apart : ¬ s.2.1 ⊆ t.2.1 := fun inside => (forth ⟨before.ne, inside⟩).1 before
  exact ⟨apart, fun inside => apart (back ⟨before.ne', inside⟩).2⟩

theorem survivors_eq_self {op : Connective} {es : List Expr}
    (unrelated : es.Pairwise (Unrelated op)) : survivors op es = es := by
  have kept : (es.zip (es.map (Expr.operands op.dual)).zipIdx).filter (fun t =>
      !(es.map (Expr.operands op.dual)).zipIdx.any fun s => absorbs s t.2) =
        es.zip (es.map (Expr.operands op.dual)).zipIdx := by
    refine List.filter_eq_self.mpr fun t member => ?_
    rw [Bool.not_eq_true', List.any_eq_false]
    intro s listed absorbed
    obtain ⟨e, found, parts⟩ := mem_parts.mp listed
    obtain ⟨found', parts'⟩ := of_mem_zip_parts member
    have inside := (supersedes_of_absorbs absorbed).1
    rw [← parts, ← parts'] at inside
    obtain ⟨low, rfl⟩ := List.getElem?_eq_some_iff.mp found
    obtain ⟨low', same⟩ := List.getElem?_eq_some_iff.mp found'
    rw [← same] at inside
    rw [List.pairwise_iff_getElem] at unrelated
    rcases Nat.lt_trichotomy s.2 t.2.2 with before | here | after
    · exact (unrelated _ _ low low' before).notIncluded inside
    · simp [absorbs, here] at absorbed
    · exact (unrelated _ _ low' low after).notIncluding inside
  rw [survivors, kept, map_fst_zip_parts]

/-- The laws leave a tidy list. -/
theorem tidy_survivors {op : Connective} {es : List Expr} (null : (.const op.annihilator) ∉ es)
    (unopposed : hasComplement (distinct op es) = false) :
    Tidy op (survivors op (distinct op es)) := by
  have part := survivors_sublist op (distinct op es)
  constructor
  · rintro e member b rfl
    have inside : Expr.const b ∈ withoutIdentity op es :=
      List.mem_eraseDups.mp (part.subset member)
    obtain ⟨listed, other⟩ := List.mem_filter.mp inside
    have absorbing : b = op.annihilator := by
      have different : b ≠ op.identity := by simpa using other
      exact Bool.eq_not.mpr different
    exact null (absorbing ▸ listed)
  · have differ := (nodup_eraseDups (withoutIdentity op es)).sublist part
    have signs := (hasComplement_eq_false_iff.mp unopposed).sublist part
    refine ((differ.and signs).and (pairwise_survivors op _)).imp ?_
    rintro e f ⟨⟨differ, sign⟩, inner, outer⟩
    exact ⟨differ, sign, inner, outer⟩

/-- On a tidy list no law fires. -/
theorem applyToChain_of_tidy {op : Connective} {es : List Expr} (tidy : Tidy op es) :
    applyToChain op es = .unchanged := by
  have null : (Expr.const op.annihilator) ∉ es := fun member => tidy.notConst _ member _ rfl
  have single : distinct op es = es := by
    have neutral : withoutIdentity op es = es := by
      refine List.filter_eq_self.mpr fun e member => ?_
      simpa using tidy.notConst e member op.identity
    rw [distinct, neutral]
    exact eraseDups_of_nodup (tidy.unrelated.imp Unrelated.differ)
  have unopposed : hasComplement (distinct op es) = false := by
    rw [single]
    exact hasComplement_eq_false_iff.mpr (tidy.unrelated.imp Unrelated.unopposed)
  rcases applyToChain_cases op es with ⟨decided, _⟩ | ⟨_, _, outcome⟩
  · rcases decided with found | found
    · exact absurd found null
    · exact Bool.noConfusion (found.symm.trans unopposed)
  · rwa [single, survivors_eq_self tidy.unrelated, if_pos rfl] at outcome

end SwitchingLogic.Law
