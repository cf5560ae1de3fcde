import Mathlib.Data.List.Forall2

/-!
# Words of a description

A description is read line by line, and a line word by word: a word is a run of letters, digits,
underscores and apostrophes, or any other single character that is no blank.  Where one of the
neighbours at a seam is not part of a run, the words of a text are those of its two parts; this is
how the words of a written line are found.
-/

namespace SwitchingLogic.Description

def isNameChar (c : Char) : Bool := c.isAlphanum || c == '_' || c == '\x27'

/-- The name that has been read so far, if there is any. -/
def wordOf (name : List Char) : List String :=
  if name.isEmpty then [] else [String.ofList name]

/-- The words of a text that goes on after the beginning of a name. -/
def wordsFrom (name : List Char) : List Char → List String
  | [] => wordOf name
  | c :: rest =>
      if isNameChar c then wordsFrom (name ++ [c]) rest
      else wordOf name ++ (if c = ' ' then [] else [c.toString]) ++ wordsFrom [] rest

def words (line : String) : List String := wordsFrom [] line.toList

def wordLines (text : String) : List (List String) :=
  (text.toList.splitOn '\n').map fun line => words (String.ofList line)

def EndsApart (s : String) : Prop := ∃ c ∈ s.toList.getLast?, isNameChar c = false

def BeginsApart (s : String) : Prop := ∃ c ∈ s.toList.head?, isNameChar c = false

instance (s : String) : Decidable (EndsApart s) :=
  decidable_of_iff (s.toList.getLast?.any (fun c => !isNameChar c) = true)
    (by simp [EndsApart, Option.any_eq_true])

instance (s : String) : Decidable (BeginsApart s) :=
  decidable_of_iff (s.toList.head?.any (fun c => !isNameChar c) = true)
    (by simp [BeginsApart, Option.any_eq_true])

theorem EndsApart.append {t : String} (apart : EndsApart t) (s : String) : EndsApart (s ++ t) := by
  obtain ⟨c, last, outside⟩ := apart
  refine ⟨c, ?_, outside⟩
  rw [Option.mem_def] at last ⊢
  rw [String.toList_append, List.getLast?_append, last]
  rfl

theorem wordsFrom_of_not_isNameChar (name : List Char) {c : Char}
    (outside : isNameChar c = false) (rest : List Char) :
    wordsFrom name (c :: rest) =
      wordOf name ++ (if c = ' ' then [] else [c.toString]) ++ wordsFrom [] rest :=
  if_neg (Bool.eq_false_iff.mp outside)

theorem wordsFrom_append (name s : List Char) {c : Char} (outside : isNameChar c = false)
    (rest : List Char) :
    wordsFrom name (s ++ c :: rest) = wordsFrom name s ++ wordsFrom [] (c :: rest) := by
  induction s generalizing name with
  | nil =>
      rw [List.nil_append, wordsFrom_of_not_isNameChar name outside,
        wordsFrom_of_not_isNameChar [] outside, List.append_assoc]
      rfl
  | cons d rest' ih =>
      rw [List.cons_append, wordsFrom, wordsFrom]
      split
      · exact ih _
      · rw [ih, List.append_assoc, List.append_assoc, List.append_assoc]

theorem words_append_of_beginsApart (s : String) {t : String} (apart : BeginsApart t) :
    words (s ++ t) = words s ++ words t := by
  obtain ⟨c, head, outside⟩ := apart
  obtain ⟨rest, whole⟩ := List.head?_eq_some_iff.mp head
  rw [words, words, words, String.toList_append, whole]
  exact wordsFrom_append [] s.toList outside rest

theorem words_append_of_endsApart {s : String} (t : String) (apart : EndsApart s) :
    words (s ++ t) = words s ++ words t := by
  obtain ⟨c, last, outside⟩ := apart
  obtain ⟨front, whole⟩ := List.getLast?_eq_some_iff.mp last
  rw [words, words, words, String.toList_append, whole, List.append_assoc, List.singleton_append,
    wordsFrom_append [] front outside, wordsFrom_append [] front outside,
    wordsFrom_of_not_isNameChar [] outside, wordsFrom_of_not_isNameChar [] outside]
  simp [wordsFrom, wordOf]

def IsName (s : String) : Prop := s.toList ≠ [] ∧ ∀ c ∈ s.toList, isNameChar c = true

instance (s : String) : Decidable (IsName s) :=
  decidable_of_iff (s.toList ≠ [] ∧ s.toList.all isNameChar = true)
    (by rw [IsName, List.all_eq_true])

theorem wordsFrom_of_all (name : List Char) {s : List Char}
    (all : ∀ c ∈ s, isNameChar c = true) : wordsFrom name s = wordOf (name ++ s) := by
  induction s generalizing name with
  | nil => rw [wordsFrom, List.append_nil]
  | cons c rest ih =>
      rw [wordsFrom, if_pos (all c List.mem_cons_self),
        ih _ fun d member => all d (List.mem_cons_of_mem c member), List.append_assoc,
        List.singleton_append]

theorem IsName.words_eq {s : String} (isName : IsName s) : words s = [s] := by
  rw [words, wordsFrom_of_all [] isName.2, List.nil_append, wordOf,
    List.isEmpty_eq_false_iff.mpr isName.1, String.ofList_toList]
  rfl

theorem IsName.append {s t : String} (first : IsName s) (second : IsName t) : IsName (s ++ t) := by
  rw [IsName, String.toList_append]
  refine ⟨List.append_ne_nil_of_left_ne_nil first.1 _, fun c member => ?_⟩
  exact (List.mem_append.mp member).elim (first.2 c) (second.2 c)

theorem isName_toString (n : Nat) : IsName (toString n) := by
  rw [IsName, Nat.toString_eq_repr, Nat.toList_repr]
  refine ⟨Nat.toDigits_ne_nil, fun c digit => ?_⟩
  have inside : c.isDigit = true := Nat.isDigit_of_mem_toDigits (by decide) (by decide) digit
  rw [isNameChar, Char.isAlphanum, inside, Bool.or_true, Bool.true_or, Bool.true_or]

/-- The text is written on one line and consists of these words. -/
structure Spells (s : String) (ws : List String) : Prop where
  words_eq : words s = ws
  unbroken : '\n' ∉ s.toList

theorem IsName.spells {s : String} (isName : IsName s) : Spells s [s] := by
  refine ⟨isName.words_eq, fun broken => ?_⟩
  have inside : isNameChar '\n' = true := isName.2 _ broken
  revert inside
  decide

instance (s : String) (ws : List String) : Decidable (Spells s ws) :=
  decidable_of_iff (words s = ws ∧ '\n' ∉ s.toList)
    ⟨fun ⟨words_eq, unbroken⟩ => ⟨words_eq, unbroken⟩,
      fun spells => ⟨spells.words_eq, spells.unbroken⟩⟩

/-- What may stand in front of anything. -/
structure Opens (s : String) (ws : List String) : Prop extends Spells s ws where
  ends : EndsApart s

/-- What may stand behind anything. -/
structure Closes (s : String) (ws : List String) : Prop extends Spells s ws where
  begins : BeginsApart s

structure Separates (s : String) (ws : List String) : Prop extends Opens s ws, Closes s ws

instance (s : String) (ws : List String) : Decidable (Opens s ws) :=
  decidable_of_iff (Spells s ws ∧ EndsApart s)
    ⟨fun ⟨spells, ends⟩ => ⟨spells, ends⟩, fun opens => ⟨opens.toSpells, opens.ends⟩⟩

instance (s : String) (ws : List String) : Decidable (Closes s ws) :=
  decidable_of_iff (Spells s ws ∧ BeginsApart s)
    ⟨fun ⟨spells, begins⟩ => ⟨spells, begins⟩, fun closes => ⟨closes.toSpells, closes.begins⟩⟩

instance (s : String) (ws : List String) : Decidable (Separates s ws) :=
  decidable_of_iff (Opens s ws ∧ Closes s ws)
    ⟨fun ⟨opens, closes⟩ => ⟨opens, closes.begins⟩,
      fun separates => ⟨separates.toOpens, separates.toCloses⟩⟩

section

variable {s t : String} {ws ws' : List String}

theorem Spells.append (first : Spells s ws) (second : Spells t ws')
    (seam : words (s ++ t) = words s ++ words t) : Spells (s ++ t) (ws ++ ws') := by
  refine ⟨?_, ?_⟩
  · rw [seam, first.words_eq, second.words_eq]
  · rw [String.toList_append, List.mem_append, not_or]
    exact ⟨first.unbroken, second.unbroken⟩

theorem Opens.before (opens : Opens s ws) (second : Spells t ws') : Spells (s ++ t) (ws ++ ws') :=
  opens.toSpells.append second (words_append_of_endsApart t opens.ends)

theorem Closes.behind (closes : Closes t ws') (first : Spells s ws) :
    Spells (s ++ t) (ws ++ ws') :=
  first.append closes.toSpells (words_append_of_beginsApart s closes.begins)

theorem Separates.between {mark : String} {mid : List String} (separates : Separates mark mid)
    (first : Spells s ws) (second : Spells t ws') :
    Spells (s ++ mark ++ t) (ws ++ mid ++ ws') :=
  (Opens.mk (separates.toCloses.behind first) (separates.ends.append s)).before second

end

/-- A line with a name in the middle. -/
theorem spells_around {before after name : String} {front back : List String}
    (opens : Opens before front) (isName : IsName name) (closes : Closes after back) :
    Spells (before ++ name ++ after) (front ++ [name] ++ back) :=
  closes.behind (opens.before isName.spells)

/-- A list of names, with a comma after each but the last. -/
theorem spells_intercalate {names : List String} (all : ∀ name ∈ names, IsName name) :
    Spells (", ".intercalate names) (names.intersperse ",") := by
  induction names with
  | nil => decide
  | cons name rest ih =>
      have first := (all name List.mem_cons_self).spells
      cases rest with
      | nil => exact first
      | cons next rest =>
          rw [String.intercalate_cons_cons]
          exact (by decide : Separates ", " [","]).between first
            (ih fun other member => all other (List.mem_cons_of_mem name member))

theorem forall₂_map {α : Type} {line : α → String} {spelled : α → List String}
    (spells : ∀ x, Spells (line x) (spelled x)) (l : List α) :
    List.Forall₂ Spells (l.map line) (l.map spelled) := by
  rw [List.forall₂_map_left_iff, List.forall₂_map_right_iff, List.forall₂_same]
  exact fun x _ => spells x

theorem splitOn_flatMap {lines : List (List Char)} (unbroken : ∀ line ∈ lines, '\n' ∉ line) :
    (lines.flatMap (· ++ ['\n'])).splitOn '\n' = lines ++ [[]] := by
  induction lines with
  | nil => rfl
  | cons line rest ih =>
      have alone : line.splitOnP (· == '\n') = [line] :=
        List.splitOnP_eq_singleton fun c member => by
          rw [beq_eq_false_iff_ne]
          rintro rfl
          exact unbroken line List.mem_cons_self member
      have later := ih fun other member => unbroken other (List.mem_cons_of_mem line member)
      rw [List.splitOn] at later
      rw [List.flatMap_cons, List.append_assoc, List.singleton_append, List.splitOn,
        List.splitOnP_append_cons (p := (· == '\n')) line _ (beq_self_eq_true '\n'), alone,
        later]
      rfl

/-- The lines of a text that was put together from lines have the words of these lines; behind the
last line break nothing is left. -/
theorem wordLines_join {lines : List String} {spelled : List (List String)}
    (all : List.Forall₂ Spells lines spelled) :
    wordLines (String.join (lines.map (· ++ "\n"))) = spelled ++ [[]] := by
  have unbroken : ∀ line ∈ lines.map String.toList, '\n' ∉ line := by
    induction all with
    | nil => exact nofun
    | cons spells _ ih =>
        intro line member
        obtain rfl | later := List.mem_cons.mp member
        · exact spells.unbroken
        · exact ih line later
  have read : lines.map words = spelled := by
    induction all with
    | nil => rfl
    | cons spells _ ih =>
        rw [List.map_cons, spells.words_eq, ih fun line member =>
          unbroken line (List.mem_cons_of_mem _ member)]
  have joined : (String.join (lines.map (· ++ "\n"))).toList =
      (lines.map String.toList).flatMap (· ++ ['\n']) := by
    rw [String.toList_join, List.flatMap_map, List.flatMap_map]
    exact List.flatMap_congr fun line _ => String.toList_append
  rw [wordLines, joined, splitOn_flatMap unbroken, List.map_append, List.map_map, ← read]
  simp [Function.comp_def, String.ofList_toList]
  rfl

end SwitchingLogic.Description
