import SwitchingLogic.Formula.Basic
import SwitchingLogic.Proofs.Error.Results
import SwitchingLogic.Proofs.Formula.Grammar
import SwitchingLogic.Proofs.Formula.Validate

/-!
# What becomes of a text

The checks on a text accept exactly what the grammar derives, so that a text without fault can only
be too large.  Building the tree of a phrase fails for no other reason than its height.
-/

namespace SwitchingLogic

def Error.IsTooComplex (e : Error) : Prop :=
  ∃ measure found limit, limit < found ∧ e = .tooComplex measure found limit

namespace Phrase

/-- The operation can fail for nothing but the size of what it makes. -/
def Bounded {α : Type} (result : Except Error α) : Prop :=
  ∀ e, result = .error e → e.IsTooComplex

theorem bounded_pure {α : Type} (a : α) : Bounded (pure a : Except Error α) := nofun

theorem Bounded.bind {α β : Type} {first : Except Error α} {next : α → Except Error β}
    (bounded : Bounded first) (later : ∀ a, Bounded (next a)) : Bounded (first >>= next) := by
  intro e failed
  cases first with
  | error e' =>
      cases failed
      exact bounded e rfl
  | ok a => exact later a e failed

theorem bounded_checkDepth (depth : Nat) : Bounded (checkDepth depth) := by
  intro e failed
  rw [checkDepth] at failed
  split at failed
  · rename_i above
    cases failed
    exact ⟨_, _, _, above, rfl⟩
  · cases failed

theorem bounded_join (op : Connective) (c : Chain) : Bounded (c.join op) :=
  (bounded_checkDepth _).bind fun _ => bounded_pure _

mutual

theorem bounded_sum (s : Sum) : Bounded s.chain := by
  match s with
  | .one p =>
      exact (bounded_product p).bind fun c => (bounded_join .and c).bind fun _ => bounded_pure _
  | .plus s p =>
      exact (bounded_sum s).bind fun _ => (bounded_product p).bind fun c =>
        (bounded_join .and c).bind fun _ => bounded_pure _

theorem bounded_product (p : Product) : Bounded p.chain := by
  match p with
  | .one (.mk bangs o) => exact (bounded_factor bangs o).bind fun _ => bounded_pure _
  | .times p dot (.mk bangs o) =>
      exact (bounded_product p).bind fun _ => (bounded_factor bangs o).bind fun _ => bounded_pure _

theorem bounded_factor (bangs : Nat) (o : Operand) : Bounded (Factor.mk bangs o).load :=
  (bounded_operand o).bind fun _ => (bounded_checkDepth _).bind fun _ => bounded_pure _

theorem bounded_operand (o : Operand) : Bounded o.load := by
  match o with
  | .letter v => exact bounded_pure _
  | .digit b => exact bounded_pure _
  | .group s => exact (bounded_sum s).bind fun c => bounded_join .or c
  | .complement o =>
      exact (bounded_operand o).bind fun _ => (bounded_checkDepth _).bind fun _ => bounded_pure _

end

theorem Sum.bounded_load (s : Sum) : Bounded s.load :=
  (bounded_sum s).bind fun c => bounded_join .or c

end Phrase

namespace Formula

open Phrase

theorem bounded_checkSize (s : List Char) : Bounded (checkSize s) := by
  intro e failed
  rw [checkSize] at failed
  split at failed
  · rename_i above
    cases failed
    exact ⟨_, _, _, above, rfl⟩
  · split at failed
    · rename_i above
      cases failed
      exact ⟨_, _, _, above, rfl⟩
    · cases failed

theorem parenthesisFault?_ne (s : List Char) (position opened : Nat) :
    parenthesisFault? position opened s ≠ some .unexpectedToken := by
  fun_induction parenthesisFault? position opened s with
  | case1 => simp
  | case2 => simp
  | case3 _ _ _ ih => exact ih
  | case4 => simp
  | case5 _ _ _ _ ih => exact ih
  | case6 _ _ _ _ _ _ ih => exact ih

theorem pairFault?_ne (a b : Char) (position : Nat) :
    pairFault? a b position ≠ some .unexpectedToken := by
  unfold pairFault?
  grind

theorem neighbourFault?_ne (s : List Char) (position : Nat) :
    neighbourFault? position s ≠ some .unexpectedToken := by
  fun_induction neighbourFault? position s with
  | case1 position a b rest ih =>
      rw [Option.orElse_eq_orElse, Option.orElse_eq_or, ne_eq, Option.or_eq_some_iff, not_or,
        not_and]
      exact ⟨pairFault?_ne a b position, fun _ => ih⟩
  | case2 => simp

/-- No check reports that the grammar refuses a token. -/
theorem fault?_ne_unexpectedToken (s : List Char) : fault? s ≠ some .unexpectedToken := by
  cases s with
  | nil => nofun
  | cons first rest =>
      have character : characterFault? (first :: rest) ≠ some .unexpectedToken := by
        rw [characterFault?, ne_eq, List.findSome?_eq_some_iff]
        grind
      have leading : leadingFault? first ≠ some .unexpectedToken := by
        unfold leadingFault?
        grind
      have trailing : trailingFault? (rest.getLastD first) ≠ some .unexpectedToken := by
        unfold trailingFault?
        grind
      simp only [fault?, Option.orElse_eq_orElse, Option.orElse_eq_or, ne_eq, Option.or_eq_some_iff,
        not_or, not_and]
      exact ⟨character, fun _ => ⟨parenthesisFault?_ne _ _ _, fun _ => ⟨leading, fun _ =>
        ⟨trailing, fun _ => neighbourFault?_ne _ _⟩⟩⟩⟩

/-- A text with a fault is refused for it. -/
theorem parse_of_fault {source : String} {fault : FormulaFault}
    (found : fault? (normalize source.toList) = some fault) :
    parse source = .error (.malformed source fault) := by
  simp only [parse, found]
  rfl

/-- A text without fault spells a sum, and what is left to do is to bound and to load it. -/
theorem exists_parse_eq {source : String} (none' : fault? (normalize source.toList) = none) :
    ∃ sum : Sum, sum.text = normalize source.toList ∧
      parse source = (do
        checkSize (normalize source.toList)
        let loaded ← sum.load
        pure ⟨source, String.ofList (normalize source.toList), loaded.expr⟩) := by
  obtain ⟨sum, read⟩ := (fault?_eq_none_iff _).mp none'
  refine ⟨sum, Sum.read?_eq_some_iff.mp read, ?_⟩
  simp only [parse, none', load, read]

theorem bounded_parse {source : String} (none' : fault? (normalize source.toList) = none) :
    Bounded (parse source) := by
  obtain ⟨sum, _, parsed⟩ := exists_parse_eq none'
  rw [parsed]
  exact (bounded_checkSize _).bind fun _ => sum.bounded_load.bind fun _ => bounded_pure _

/-- What is read is the tree that a sum loads, and the normalized text is the text of this sum. -/
theorem exists_load_of_parse {source : String} {f : Formula} (parsed : parse source = .ok f) :
    ∃ (sum : Sum) (l : Loaded), sum.text = normalize source.toList ∧ sum.load = .ok l ∧
      f = ⟨source, String.ofList sum.text, l.expr⟩ := by
  cases found : fault? (normalize source.toList) with
  | some fault =>
      rw [parse_of_fault found] at parsed
      cases parsed
  | none =>
      obtain ⟨sum, spells, run⟩ := exists_parse_eq found
      rw [run] at parsed
      obtain ⟨_, _, later⟩ := Error.bind_eq_ok_iff.mp parsed
      obtain ⟨l, loaded, made⟩ := Error.bind_eq_ok_iff.mp later
      exact ⟨sum, l, spells, loaded, by rw [spells, Error.pure_eq_ok_iff.mp made]⟩

/-- A text whose normalized form spells a sum is loaded from this sum, or it is too large. -/
theorem exists_load_of_text {source : String} {sum : Sum}
    (spells : sum.text = normalize source.toList) :
    match parse source with
    | .ok f => ∃ l, sum.load = .ok l ∧ f = ⟨source, String.ofList sum.text, l.expr⟩
    | .error failure => failure.IsTooComplex := by
  have reads := Sum.read?_eq_some_iff.mpr spells
  have faultless : fault? (normalize source.toList) = none :=
    (fault?_eq_none_iff _).mpr ⟨sum, reads⟩
  have bounded := bounded_parse faultless
  obtain ⟨found, spells', parsed⟩ := exists_parse_eq faultless
  cases Option.some.inj ((Sum.read?_eq_some_iff.mpr spells').symm.trans reads)
  cases outcome : parse source with
  | error failure => exact bounded failure outcome
  | ok f =>
      rw [parsed] at outcome
      obtain ⟨_, _, later⟩ := Error.bind_eq_ok_iff.mp outcome
      obtain ⟨l, loaded, made⟩ := Error.bind_eq_ok_iff.mp later
      exact ⟨l, loaded, by rw [spells, Error.pure_eq_ok_iff.mp made]⟩

/-- The checks accept what the grammar derives, and this is what a matcher accepts.  Of a text with
a fault the fault is reported; another text is read, or too large.  So the grammar itself never
refuses a text. -/
theorem validation_exact :
    (∀ s, (fault? s = none ↔ Grammar.Derives (.rule .expr) s) ∧
      (fault? s = none ↔ Grammar.Matches (.rule .expr) s (some []))) ∧
    ∀ source : String,
      (match fault? (normalize source.toList) with
        | some fault => parse source = .error (.malformed source fault)
        | none => (∃ f, parse source = .ok f) ∨ ∃ e, parse source = .error e ∧ e.IsTooComplex) ∧
      ∀ text, parse source ≠ .error (.malformed text .unexpectedToken) := by
  have derived (s : List Char) : fault? s = none ↔ ∃ sum : Sum, sum.text = s :=
    (fault?_eq_none_iff s).trans (exists_congr fun _ => Sum.read?_eq_some_iff)
  refine ⟨fun s => ⟨?_, ?_⟩, fun source => ?_⟩
  · rw [derived, Grammar.derives_expr_iff]
  · rw [derived, Grammar.matches_expr_iff]
  · cases found : fault? (normalize source.toList) with
    | some fault =>
        refine ⟨parse_of_fault found, fun text refused => ?_⟩
        rw [parse_of_fault found] at refused
        cases refused
        exact fault?_ne_unexpectedToken _ found
    | none =>
        have bounded := bounded_parse found
        cases parsed : parse source with
        | ok f => exact ⟨Or.inl ⟨f, rfl⟩, nofun⟩
        | error e =>
            obtain ⟨measure, count, limit, above, rfl⟩ := bounded e parsed
            exact ⟨Or.inr ⟨_, rfl, measure, count, limit, above, rfl⟩, nofun⟩

end Formula

end SwitchingLogic
