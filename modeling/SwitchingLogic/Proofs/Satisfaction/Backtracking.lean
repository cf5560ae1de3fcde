import SwitchingLogic.Proofs.Satisfaction.Search

/-!
# Backtracking on a shared assignment

The branching search can be run on one list of entries, an entry for each variable, that all
branches share: an entry is set when a branch is entered and cleared when it is left.  Whichever
way a branch is left, the entries are then the ones that it was given, so that the next branch
starts from them, and the search finds what the search on terms finds.
-/

namespace SwitchingLogic.Problem

def lookup (p : Problem) (entries : List (Option Bool)) (v : Variable) : Option Bool :=
  entries[p.vars.idxOf v]?.join

def stateOf (p : Problem) (entries : List (Option Bool)) : State :=
  State.ofList (((p.vars.zip entries).filter fun (_, value) => value == some true).map Prod.fst)

structure Shared where
  entries : List (Option Bool)
  solutions : List State
  steps : Nat

namespace Shared

def assign (w : Shared) (place : Nat) (value : Option Bool) : Shared :=
  { w with entries := w.entries.set place value }

def charge (w : Shared) : Shared := { w with steps := w.steps + 1 }

def report (w : Shared) (s : State) : Shared := { w with solutions := w.solutions ++ [s] }

def extend (w : Shared) (found : Search) : Shared :=
  { w with solutions := w.solutions ++ found.solutions, steps := w.steps + found.steps }

end Shared

/-- Leave a branch: the entry that it has set is cleared. -/
def leave (depth : Nat) (outcome : Bool × Shared) : Bool × Shared :=
  (outcome.1, outcome.2.assign depth none)

/-- Search below the entries, of which those in front of `depth` are set, and say whether the whole
search is over. -/
def backtrack (p : Problem) (findAll : Bool) (depth : Nat) (w : Shared) : Bool × Shared :=
  if p.status (p.lookup w.entries) = some false then (false, w.charge)
  else if depth < p.vars.length then
    let first := p.backtrack findAll (depth + 1) (w.charge.assign depth (some true))
    leave depth (if first.1 then first
      else p.backtrack findAll (depth + 1) (first.2.assign depth (some false)))
  else if p.status (p.lookup w.entries) = some true then
    (!findAll, w.charge.report (p.stateOf w.entries))
  else (false, w.charge)
termination_by p.vars.length - depth

def start (p : Problem) : Shared := ⟨List.replicate p.vars.length none, [], 0⟩

/-- The calls that are made in the course of a search. -/
inductive Called (p : Problem) (findAll : Bool) : Nat → Shared → Prop where
  | root : Called p findAll 0 p.start
  | first {depth : Nat} {w : Shared} (called : Called p findAll depth w)
      (live : p.status (p.lookup w.entries) ≠ some false) (inside : depth < p.vars.length) :
      Called p findAll (depth + 1) (w.charge.assign depth (some true))
  | second {depth : Nat} {w : Shared} (called : Called p findAll depth w)
      (live : p.status (p.lookup w.entries) ≠ some false) (inside : depth < p.vars.length)
      (on : (p.backtrack findAll (depth + 1) (w.charge.assign depth (some true))).1 = false) :
      Called p findAll (depth + 1)
        ((p.backtrack findAll (depth + 1) (w.charge.assign depth (some true))).2.assign depth
          (some false))

variable {p : Problem} {findAll : Bool} {depth : Nat} {w : Shared}
  {entries : List (Option Bool)}

theorem entries_leave (depth : Nat) (outcome : Bool × Shared) :
    (leave depth outcome).2.entries = outcome.2.entries.set depth none := rfl

def OpenFrom (depth : Nat) (entries : List (Option Bool)) : Prop :=
  ∀ place, depth ≤ place → entries[place]?.join = none

theorem OpenFrom.set (free : OpenFrom depth entries) (value : Option Bool) :
    OpenFrom (depth + 1) (entries.set depth value) := by
  intro place behind
  rw [List.getElem?_set_ne (Nat.ne_of_lt behind)]
  exact free place (Nat.le_of_succ_le behind)

/-- Clearing an entry that was open undoes setting it. -/
theorem OpenFrom.clear (free : OpenFrom depth entries) (value : Option Bool) :
    (entries.set depth value).set depth none = entries := by
  refine List.ext_getElem? fun place => ?_
  rw [List.set_set, List.getElem?_set]
  by_cases same : depth = place
  · subst same
    have here := free depth le_rfl
    rw [if_pos rfl]
    by_cases inside : depth < entries.length
    · rw [List.getElem?_eq_getElem inside, Option.join_some] at here
      rw [if_pos inside, List.getElem?_eq_getElem inside, here]
    · rw [if_neg inside, List.getElem?_eq_none (Nat.le_of_not_lt inside)]
  · rw [if_neg same]

/-- Leaving a branch gives the entries back that were open where it has set them. -/
theorem leave_eq {outcome : Bool × Shared} {value : Option Bool} (free : OpenFrom depth w.entries)
    (set : outcome.2.entries = w.entries.set depth value) :
    leave depth outcome = (outcome.1, { outcome.2 with entries := w.entries }) := by
  rw [leave, Shared.assign, set, free.clear]

/-- A branch gives the entries back when it is left, if it was given open ones. -/
theorem entries_backtrack (free : OpenFrom depth w.entries) :
    (p.backtrack findAll depth w).2.entries = w.entries := by
  generalize left : p.vars.length - depth = count
  induction count generalizing depth w with
  | zero =>
      rw [backtrack, if_neg (by omega : ¬ depth < p.vars.length)]
      split
      · rfl
      · split <;> rfl
  | succ count ih =>
      have branch {value : Bool} {given : Shared}
          (set : given.entries = w.entries.set depth (some value)) :
          (p.backtrack findAll (depth + 1) given).2.entries = w.entries.set depth (some value) := by
        rw [ih (set ▸ free.set (some value)) (by omega), set]
      have first : (p.backtrack findAll (depth + 1) (w.charge.assign depth (some true))).2.entries =
          w.entries.set depth (some true) :=
        branch rfl
      have second (given : Shared) (set : given.entries = w.entries.set depth (some true)) :
          (p.backtrack findAll (depth + 1) (given.assign depth (some false))).2.entries =
            w.entries.set depth (some false) := by
        apply branch
        rw [Shared.assign, set, List.set_set]
      rw [backtrack, if_pos (by omega : depth < p.vars.length)]
      split
      · rfl
      · dsimp only
        rw [entries_leave]
        split
        · rw [first, free.clear]
        · rw [second _ first, free.clear]

/-- Every call of a search is given entries that are open from its depth on. -/
theorem Called.openFrom (called : p.Called findAll depth w) : OpenFrom depth w.entries := by
  induction called with
  | root =>
      intro place _
      rw [start, List.getElem?_replicate]
      split <;> rfl
  | first _ _ _ free => exact free.set (some true)
  | @second depth w _ _ _ _ free =>
      have kept : (p.backtrack findAll (depth + 1) (w.charge.assign depth (some true))).2.entries =
          w.entries.set depth (some true) :=
        entries_backtrack (free.set (some true))
      rw [Shared.assign, kept, List.set_set]
      exact free.set (some false)

/-! ## The search on terms -/

/-- The entries give the values that the term fixes. -/
structure Records (p : Problem) (entries : List (Option Bool)) (t : Term) : Prop where
  length_eq : entries.length = p.vars.length
  lookup_eq : ∀ v, p.lookup entries v = t.lookup v

variable {t : Term}

theorem lookup_set (length : entries.length = p.vars.length) (inside : depth < p.vars.length)
    (value : Option Bool) (v : Variable) :
    p.lookup (entries.set depth value) v =
      if p.vars[depth] = v then value else p.lookup entries v := by
  rw [lookup, List.getElem?_set]
  by_cases here : p.vars[depth] = v
  · rw [if_pos here, ← here, p.nodup_vars.idxOf_getElem depth inside, if_pos rfl,
      if_pos (length ▸ inside)]
    rfl
  · rw [if_neg here, if_neg]
    · rfl
    · intro found
      have listed : p.vars.idxOf v < p.vars.length := found ▸ inside
      apply here
      simpa only [found] using List.getElem_idxOf listed

theorem Records.set (records : p.Records entries t) (inside : depth < p.vars.length)
    (value : Bool) :
    p.Records (entries.set depth (some value)) (t.set p.vars[depth] value) where
  length_eq := by rw [List.length_set, records.length_eq]
  lookup_eq v := by rw [lookup_set records.length_eq inside, Term.lookup_set, records.lookup_eq]

theorem records_start (p : Problem) : p.Records p.start.entries .free where
  length_eq := List.length_replicate
  lookup_eq v := by
    rw [Term.lookup_free, lookup, start, List.getElem?_replicate]
    split <;> rfl

theorem Records.status_eq (records : p.Records entries t) :
    p.status (p.lookup entries) = p.status t.lookup :=
  congrArg p.status (funext records.lookup_eq)

/-- A variable is paired with its own entry. -/
theorem mem_zip_iff (length : entries.length = p.vars.length) (v : Variable) :
    (v, some true) ∈ p.vars.zip entries ↔ p.lookup entries v = some true := by
  rw [List.mem_iff_getElem, lookup, Option.join_eq_some_iff, List.getElem?_eq_some_iff]
  constructor
  · rintro ⟨place, inside, pair⟩
    rw [List.getElem_zip, Prod.mk.injEq] at pair
    rw [List.length_zip] at inside
    obtain ⟨rfl, entry⟩ := pair
    simp only [p.nodup_vars.idxOf_getElem place (by omega)]
    exact ⟨by omega, entry⟩
  · rintro ⟨inside, entry⟩
    have listed : p.vars.idxOf v < p.vars.length := length ▸ inside
    refine ⟨p.vars.idxOf v, by rw [List.length_zip]; omega, ?_⟩
    rw [List.getElem_zip, List.getElem_idxOf listed, entry]

/-- The state of the entries is the state of the term. -/
theorem Records.stateOf_eq (records : p.Records entries t) :
    p.stateOf entries = ⟨t.positive⟩ := by
  refine State.ext_isActive fun v => Bool.eq_iff_iff.mpr ?_
  have active : (p.stateOf entries).isActive v = true ↔ (v, some true) ∈ p.vars.zip entries := by
    rw [stateOf, State.ofList, State.isActive, VarSet.contains_ofList, decide_eq_true_eq]
    simp
  have fixed : t.lookup v = some true ↔ t.positive.contains v = true := by
    rw [Term.lookup]
    cases t.positive.contains v <;> cases t.negative.contains v <;> simp
  rw [active, mem_zip_iff records.length_eq, records.lookup_eq]
  exact fixed

/-- On entries that record a term the shared search does what the search below the term does. -/
theorem backtrack_eq (front : List Variable) {rest : List Variable}
    (parts : p.vars = front ++ rest) (records : p.Records w.entries t)
    (free : OpenFrom front.length w.entries) :
    p.backtrack findAll front.length w =
      ((p.branch findAll rest t).stopped, w.extend (p.branch findAll rest t)) := by
  induction rest generalizing front t w with
  | nil =>
      have last : ¬ front.length < p.vars.length := by
        rw [parts, List.append_nil]
        exact lt_irrefl _
      rw [backtrack, branch, if_neg last, records.status_eq, records.stateOf_eq]
      by_cases solved : p.status t.lookup = some true
      · have live : p.status t.lookup ≠ some false := by simp [solved]
        rw [if_neg live, if_pos solved, if_pos solved]
        rfl
      · rw [if_neg solved, if_neg solved, ite_self]
        simp [Shared.extend, Shared.charge, Search.deadEnd]
  | cons v rest ih =>
      have inside : front.length < p.vars.length := by
        rw [parts, List.length_append]
        exact Nat.lt_add_of_pos_right (Nat.succ_pos _)
      have next : p.vars[front.length] = v := by simp [parts]
      have branch' (value : Bool) (given : Shared)
          (set : given.entries = w.entries.set front.length (some value)) :
          p.backtrack findAll (front.length + 1) given =
            ((p.branch findAll rest (t.set v value)).stopped,
              given.extend (p.branch findAll rest (t.set v value))) := by
        have parts' : p.vars = (front ++ [v]) ++ rest := by
          rw [parts, List.append_assoc, List.singleton_append]
        have deeper : (front ++ [v]).length = front.length + 1 := List.length_append
        have records' := records.set inside value
        rw [next, ← set] at records'
        have free' := free.set (some value)
        rw [← set, ← deeper] at free'
        exact deeper ▸ ih _ parts' records' free'
      rw [backtrack, branch, records.status_eq]
      by_cases failed : p.status t.lookup = some false
      · rw [if_pos failed, if_pos failed]
        simp [Shared.extend, Shared.charge, Search.deadEnd]
      · have first := branch' true (w.charge.assign front.length (some true)) rfl
        rw [if_neg failed, if_neg failed, if_pos inside, first]
        dsimp only
        cases stopped : (p.branch findAll rest (t.set v true)).stopped with
        | true =>
            rw [if_pos rfl, leave_eq free rfl, Search.andThen, if_pos stopped]
            simp [Shared.extend, Shared.assign, Shared.charge, Search.charge, stopped]
            omega
        | false =>
            have second := branch' false (((w.charge.assign front.length (some true)).extend
              (p.branch findAll rest (t.set v true))).assign front.length (some false))
                (List.set_set _)
            rw [if_neg Bool.false_ne_true, second, leave_eq free (List.set_set _), Search.andThen,
              if_neg (by rw [stopped]; exact Bool.false_ne_true)]
            simp [Shared.extend, Shared.assign, Shared.charge, Search.charge]
            omega

/-- From the start, the shared search finds what the branching search finds. -/
theorem backtrack_start (p : Problem) (findAll : Bool) :
    p.backtrack findAll 0 p.start =
      ((p.branchSearch findAll).stopped, p.start.extend (p.branchSearch findAll)) :=
  backtrack_eq [] rfl (records_start p) (@Called.root p findAll).openFrom

/-- What partial knowledge decides is so in every state with the known values, for problems, for
expressions and for single constraints; and a problem whose variables are all known is decided.  The
search that relies on it, and leaves branches early, gives its entries back from every call. -/
theorem pruning_sound (p : Problem) {known : Variable → Option Bool} {s : State}
    (agrees : Extends known s.known) :
    (∀ value, p.status known = some value → p.isSolution s = value) ∧
      (∀ (e : Expr) (value : Bool), e.eval? known = some value → e.eval s = value) ∧
      (∀ (c : Constraint) (value : Bool), c.eval? known = some value → c.eval s = value) ∧
      ((∀ v ∈ p.vars, known v ≠ none) → p.status known = some (p.isSolution s)) ∧
      ∀ findAll, p.backtrack findAll 0 p.start =
          ((p.branchSearch findAll).stopped, p.start.extend (p.branchSearch findAll)) ∧
        ∀ depth w, p.Called findAll depth w →
          (p.backtrack findAll depth w).2.entries = w.entries := by
  refine ⟨fun value decided => isSolution_of_status decided agrees,
    fun e value decided => Expr.eval_of_eval? agrees decided,
    fun c value decided => Constraint.eval_of_eval? agrees decided, fun all => ?_,
    fun findAll => ⟨p.backtrack_start findAll, fun depth w called => ?_⟩⟩
  · apply status_eq_isSolution
    intro v listed
    obtain ⟨value, found⟩ := Option.ne_none_iff_exists'.mp (all v listed)
    exact found.trans (agrees v value found).symm
  · exact entries_backtrack called.openFrom

/-- Two true variables break a constraint while a third one is open. -/
theorem pruning_sound_exactly_one :
    let p : Problem := ⟨.binary .or (.var ⟨0⟩) (.var ⟨2⟩), [.exactlyOne [⟨0⟩, ⟨1⟩]]⟩
    let known := p.lookup [some true, some true, none]
    let s := State.ofList [⟨0⟩, ⟨1⟩, ⟨2⟩]
    Extends known s.known ∧ p.status known = some false ∧ p.isSolution s = false ∧
      (p.backtrack true 0 p.start).2.entries = [none, none, none] := by
  intro p known s
  have agrees : Extends known s.known := by
    have checked : ∀ v ∈ Variable.all, ∀ value, known v = some value → s.known v = some value := by
      decide +kernel
    exact fun v => checked v (Variable.mem_all v)
  have failed : p.status known = some false := by decide +kernel
  obtain ⟨decided, _, _, _, search⟩ := pruning_sound p agrees
  refine ⟨agrees, failed, decided false failed, ?_⟩
  exact ((search true).2 0 p.start .root).trans (by decide +kernel)

end SwitchingLogic.Problem
