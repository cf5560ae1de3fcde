import Mathlib.Order.WellFoundedSet
import SwitchingLogic.Law.Chain
import SwitchingLogic.Proofs.Expr.Values

/-!
# Soundness of the laws on chains

Every law keeps the answer to the question whether the chain is decided, for AND and OR alike.
Only absorption needs an argument about the list as a whole: what absorbs an operand may be
absorbed itself, but superseding is a strict order, and an operand that nothing supersedes is
left.
-/

namespace SwitchingLogic.Law

def Step.Sound (step : Step) : Prop :=
  ∀ s, step.before.eval s = step.after.eval s

structure Outcome.Sound (e : Expr) (o : Outcome) : Prop where
  value : ∀ s, (o.result?.getD e).eval s = e.eval s
  steps : ∀ step ∈ o.steps, step.Sound

theorem Outcome.sound_unchanged (e : Expr) : Outcome.unchanged.Sound e := by
  constructor
  · intro s
    rfl
  · intro step member
    cases member

/-- The chain is decided in the same states as the list it came from. -/
structure Chain.Sound (op : Connective) (given : List Expr) (c : Chain) : Prop where
  decided : ∀ s, op.Decided c.operands s ↔ op.Decided given s
  steps : ∀ step ∈ c.steps, step.Sound

theorem eval_join_congr {op : Connective} {es fs : List Expr} {s : State}
    (same : op.Decided es s ↔ op.Decided fs s) :
    (Expr.join op es).eval s = (Expr.join op fs).eval s := by
  apply op.eq_of_eq_annihilator_iff
  rw [Expr.eval_join_iff, Expr.eval_join_iff, same]

theorem Chain.Sound.shrink {op : Connective} {given operands : List Expr} {c : Chain}
    (sound : c.Sound op given) (law : Law)
    (same : ∀ s, op.Decided operands s ↔ op.Decided c.operands s) :
    (c.shrink op law operands).Sound op given := by
  unfold Chain.shrink
  split
  · constructor
    · intro s
      rw [same, sound.decided]
    · intro step member
      rcases List.mem_append.mp member with earlier | last
      · exact sound.steps step earlier
      · cases List.mem_singleton.mp last
        intro s
        exact eval_join_congr (same s).symm
  · exact sound

theorem decided_of_contains_annihilator {op : Connective} {es : List Expr}
    (found : es.contains (.const op.annihilator) = true) (s : State) : op.Decided es s :=
  ⟨_, List.contains_iff_mem.mp found, rfl⟩

theorem decided_withoutIdentity (op : Connective) (es : List Expr) (s : State) :
    op.Decided (withoutIdentity op es) s ↔ op.Decided es s := by
  constructor
  · exact Connective.Decided.mono (List.filter_subset_self es)
  · rintro ⟨e, member, value⟩
    refine ⟨e, List.mem_filter.mpr ⟨member, ?_⟩, value⟩
    rw [bne_iff_ne]
    rintro rfl
    exact op.identity_ne_annihilator value

theorem decided_eraseDups (op : Connective) (es : List Expr) (s : State) :
    op.Decided es.eraseDups s ↔ op.Decided es s := by
  simp only [Connective.Decided, List.mem_eraseDups]

theorem eval_of_isNegationOf {e f : Expr} (opposed : e.isNegationOf f = true) (s : State) :
    e.eval s = !f.eval s := by
  rw [Expr.isNegationOf, Bool.or_eq_true, beq_iff_eq, beq_iff_eq] at opposed
  rcases opposed with rfl | rfl
  · rfl
  · exact (Bool.not_not _).symm

theorem decided_of_hasComplement (op : Connective) {es : List Expr}
    (found : hasComplement es = true) (s : State) : op.Decided es s := by
  induction es with
  | nil => cases found
  | cons e rest ih =>
      rw [hasComplement, Bool.or_eq_true, List.any_eq_true] at found
      rw [op.decided_cons]
      rcases found with ⟨f, member, opposed⟩ | later
      · have values := eval_of_isNegationOf opposed s
        by_cases first : e.eval s = op.annihilator
        · exact Or.inl first
        · refine Or.inr ⟨f, member, ?_⟩
          rw [values, Bool.not_eq, not_not] at first
          exact first
      · exact Or.inr (ih later)

theorem included_iff {a b : List Expr} : included a b = true ↔ a ⊆ b := by
  rw [included, List.all_eq_true]
  exact forall₂_congr fun e _ => List.contains_iff_mem

/-- What `absorbs` asks of two operands at different places: a strict order. -/
def Supersedes (s t : List Expr × Nat) : Prop :=
  s.1 ⊆ t.1 ∧ (s.2 < t.2 ∨ ¬ t.1 ⊆ s.1)

instance : IsStrictOrder (List Expr × Nat) Supersedes where
  irrefl s := by
    rintro ⟨inside, before | outside⟩
    · exact Nat.lt_irrefl _ before
    · exact outside inside
  trans s t u := by
    rintro ⟨inner, first⟩ ⟨outer, second⟩
    refine ⟨List.Subset.trans inner outer, ?_⟩
    rcases first with before | outside
    · rcases second with between | outside
      · exact Or.inl (before.trans between)
      · exact Or.inr fun back => outside (List.Subset.trans back inner)
    · exact Or.inr fun back => outside (List.Subset.trans outer back)

theorem supersedes_of_absorbs {s t : List Expr × Nat} (absorbed : absorbs s t = true) :
    Supersedes s t := by
  simp only [absorbs, Bool.and_eq_true, Bool.or_eq_true, decide_eq_true_eq, Bool.not_eq_true',
    ← Bool.not_eq_true, included_iff] at absorbed
  exact ⟨absorbed.1.2, absorbed.2⟩

theorem mem_parts {op : Connective} {es : List Expr} {p : List Expr × Nat} :
    p ∈ (es.map (Expr.operands op)).zipIdx ↔ ∃ e, es[p.2]? = some e ∧ e.operands op = p.1 := by
  rw [List.mem_zipIdx_iff_getElem?, List.getElem?_map, Option.map_eq_some_iff]

theorem mem_zip_parts {op : Connective} {es : List Expr} {e : Expr} {p : List Expr × Nat}
    (found : es[p.2]? = some e) (parts : e.operands op = p.1) :
    (e, p) ∈ es.zip (es.map (Expr.operands op)).zipIdx := by
  refine List.mem_of_getElem? (i := p.2) (List.getElem?_zip_eq_some.mpr ⟨found, ?_⟩)
  rw [List.getElem?_zipIdx, List.getElem?_map, found, Option.map_some, Option.map_some, parts,
    Nat.zero_add]

/-- Among the operands that decide the chain, one that nothing absorbs is left. -/
theorem decided_survivors (op : Connective) (es : List Expr) (s : State) :
    op.Decided (survivors op es) s ↔ op.Decided es s := by
  constructor
  · rintro ⟨e, member, value⟩
    obtain ⟨t, left, rfl⟩ := List.mem_map.mp member
    exact ⟨t.1, (List.of_mem_zip (List.mem_filter.mp left).1).1, value⟩
  · rintro ⟨e, member, value⟩
    obtain ⟨place, found⟩ := List.getElem?_of_mem member
    have decides {f : Expr} {p : List Expr × Nat} (parts : f.operands op.dual = p.1) :
        f.eval s = op.annihilator ↔ ¬ op.dual.Decided p.1 s := by
      rw [← parts, Expr.decided_operands, op.annihilator_dual, Bool.not_eq_not]
    have descend := (List.finite_toSet (es.map (Expr.operands op.dual)).zipIdx).wellFoundedOn
      (r := Supersedes)
    refine descend.induction (P := fun p => ¬ op.dual.Decided p.1 s →
      op.Decided (survivors op es) s) (mem_parts.mpr ⟨e, found, rfl⟩) ?_
        ((decides (p := (e.operands op.dual, place)) rfl).mp value)
    intro p listed above undecided
    obtain ⟨f, located, parts⟩ := mem_parts.mp listed
    by_cases absorbed : ∃ q ∈ (es.map (Expr.operands op.dual)).zipIdx, absorbs q p = true
    · obtain ⟨q, other, superfluous⟩ := absorbed
      have supersedes := supersedes_of_absorbs superfluous
      exact above q other supersedes fun decided => undecided (decided.mono supersedes.1)
    · refine ⟨f, List.mem_map.mpr ⟨(f, p), List.mem_filter.mpr ⟨mem_zip_parts located parts, ?_⟩,
        rfl⟩, (decides parts).mpr undecided⟩
      rw [Bool.not_eq_true', ← Bool.not_eq_true, List.any_eq_true]
      exact absorbed

namespace Chain

def neutral (op : Connective) (es : List Expr) : Chain :=
  (mk es []).shrink op .identity (withoutIdentity op es)

def single (op : Connective) (es : List Expr) : Chain :=
  (neutral op es).shrink op .idempotent (neutral op es).operands.eraseDups

def least (op : Connective) (es : List Expr) : Chain :=
  (single op es).shrink op .absorption (survivors op (single op es).operands)

end Chain

/-- The laws on a chain, stage by stage. -/
theorem applyToChain_eq (op : Connective) (es : List Expr) :
    applyToChain op es =
      if es.contains (.const op.annihilator) then
        ⟨some (.const op.annihilator), [⟨.null, Expr.join op es, .const op.annihilator⟩]⟩
      else if hasComplement (Chain.single op es).operands then
        ⟨some (.const op.annihilator), (Chain.single op es).steps ++
          [⟨.complement, Expr.join op (Chain.single op es).operands, .const op.annihilator⟩]⟩
      else if (Chain.least op es).steps.isEmpty then .unchanged
      else ⟨some (Expr.join op (Chain.least op es).operands), (Chain.least op es).steps⟩ := rfl

theorem sound_annihilator {op : Connective} {es : List Expr} (law : Law)
    (decided : ∀ s, op.Decided es s) :
    Step.Sound ⟨law, Expr.join op es, .const op.annihilator⟩ :=
  fun s => (Expr.eval_join_iff op es s).mpr (decided s)

theorem sound_single (op : Connective) (es : List Expr) : (Chain.single op es).Sound op es := by
  have start : Chain.Sound op es ⟨es, []⟩ :=
    ⟨fun _ => Iff.rfl, fun _ none => (List.not_mem_nil none).elim⟩
  have neutral : (Chain.neutral op es).Sound op es :=
    start.shrink .identity (decided_withoutIdentity op es)
  exact neutral.shrink .idempotent (decided_eraseDups op _)

theorem sound_applyToChain (op : Connective) (es : List Expr) :
    (applyToChain op es).Sound (Expr.join op es) := by
  rw [applyToChain_eq]
  split
  · rename_i found
    have decided := sound_annihilator .null (decided_of_contains_annihilator found)
    constructor
    · intro s
      exact (decided s).symm
    · intro step member
      cases List.mem_singleton.mp member
      exact decided
  · have single := sound_single op es
    split
    · rename_i found
      have decided := sound_annihilator .complement (decided_of_hasComplement op found)
      constructor
      · intro s
        rw [Option.getD_some, ← decided s]
        exact eval_join_congr (single.decided s)
      · intro step member
        rcases List.mem_append.mp member with earlier | last
        · exact single.steps step earlier
        · cases List.mem_singleton.mp last
          exact decided
    · have least : (Chain.least op es).Sound op es :=
        single.shrink .absorption (decided_survivors op _)
      split
      · exact Outcome.sound_unchanged _
      · exact ⟨fun s => eval_join_congr (least.decided s), least.steps⟩

end SwitchingLogic.Law
