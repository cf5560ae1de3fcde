import Mathlib.Data.Option.Basic
import SwitchingLogic.Formula.Normalize
import SwitchingLogic.Formula.Reader

/-!
# Exactness of the reader

The reader stands behind a text that its frames and its operand spell: each character that it
accepts is added at the end, and nothing is lost.  Conversely the text of a phrase leads the reader
to this phrase.  A text therefore spells the sum that is read from it, and no other one.
-/

namespace SwitchingLogic

namespace Variable

theorem ofLetter?_letter (v : Variable) : ofLetter? v.letter = some v := by
  obtain ⟨index⟩ := v
  revert index
  decide

theorem letter_injective : Function.Injective letter := fun v w same =>
  Option.some.inj (by rw [← ofLetter?_letter v, same, ofLetter?_letter w])

theorem letter_of_ofLetter? {c : Char} {v : Variable} (found : ofLetter? c = some v) :
    v.letter = c := by
  have upper : 'A'.toNat = 65 := rfl
  have lower : 'a'.toNat = 97 := rfl
  simp only [ofLetter?] at found
  split at found
  · rename_i inside
    cases found
    have small : c.toNat - 65 < 26 := by
      have last : 'Z'.toNat = 90 := rfl
      omega
    rw [letter, if_pos small, upper, Nat.add_sub_cancel' (upper ▸ inside.1), Char.ofNat_toNat]
  · split at found
    · rename_i inside
      cases found
      have large : ¬ c.toNat - 71 < 26 := by omega
      have back : 'a'.toNat + (c.toNat - 71 - 26) = c.toNat := by omega
      rw [letter, if_neg large, back, Char.ofNat_toNat]
    · cases found

theorem letter_spec (v : Variable) :
    v.letter.isAlpha = true ∧ v.letter ≠ '(' ∧ v.letter ≠ '1' ∧ v.letter ≠ '0' := by
  obtain ⟨index⟩ := v
  revert index
  decide

theorem isAlpha_iff (c : Char) :
    c.isAlpha = true ↔
      'A'.toNat ≤ c.toNat ∧ c.toNat ≤ 'Z'.toNat ∨ 'a'.toNat ≤ c.toNat ∧ c.toNat ≤ 'z'.toNat := by
  change (decide ('A'.toNat ≤ c.toNat ∧ c.toNat ≤ 'Z'.toNat) ||
    decide ('a'.toNat ≤ c.toNat) && decide (c.toNat ≤ 'z'.toNat)) = true ↔ _
  simp only [Bool.or_eq_true, Bool.and_eq_true, decide_eq_true_eq]

theorem isSome_ofLetter? (c : Char) : (ofLetter? c).isSome = c.isAlpha := by
  rw [Bool.eq_iff_iff, isAlpha_iff]
  simp only [ofLetter?]
  split
  · rename_i upper
    exact iff_of_true rfl (Or.inl upper)
  · rename_i notUpper
    split
    · rename_i lower
      exact iff_of_true rfl (Or.inr lower)
    · rename_i notLower
      exact iff_of_false Bool.false_ne_true (not_or.mpr ⟨notUpper, notLower⟩)

end Variable

namespace Phrase

def startsOperand (c : Char) : Bool :=
  Formula.isLeafChar c || c == '!' || c == '('

namespace Frame

/-- The text in front of the operand, from the opening of the group on. -/
def text (f : Frame) : List Char :=
  (match f.sum? with
    | none => []
    | some s => s.text ++ ['+']) ++
  (match f.product? with
    | none => []
    | some p => p.text ++ if f.dot then ['·'] else []) ++
  List.replicate f.bangs '!'

theorem text_bang (f : Frame) : { f with bangs := f.bangs + 1 }.text = f.text ++ ['!'] := by
  simp only [text, List.replicate_succ', List.append_assoc]

theorem text_sum (f : Frame) (o : Operand) : (f.sum o).text = f.text ++ o.text := by
  obtain ⟨sum?, product?, dot, bangs⟩ := f
  cases sum? with
  | none =>
      cases product? with
      | none => simp [text, sum, product, Sum.text, Product.text, Factor.text]
      | some p => simp [text, sum, product, Sum.text, Product.text, Factor.text]
  | some s =>
      cases product? with
      | none => simp [text, sum, product, Sum.text, Product.text, Factor.text]
      | some p => simp [text, sum, product, Sum.text, Product.text, Factor.text]

theorem text_nextProduct (f : Frame) (o : Operand) :
    (f.nextProduct o).text = f.text ++ o.text ++ ['+'] := by
  rw [← text_sum]
  simp [text, nextProduct]

theorem text_nextFactor (f : Frame) (o : Operand) (dot : Bool) :
    (f.nextFactor o dot).text = f.text ++ o.text ++ if dot then ['·'] else [] := by
  obtain ⟨sum?, product?, dot', bangs⟩ := f
  cases product? with
  | none => cases dot <;> simp [text, nextFactor, product, Product.text, Factor.text]
  | some p => cases dot <;> simp [text, nextFactor, product, Product.text, Factor.text]

end Frame

namespace Reader

/-- The text of the enclosing groups up to their last opening parentheses. -/
def outerText : List Frame → List Char
  | [] => []
  | f :: outer => outerText outer ++ f.text ++ ['(']

/-- The text behind which the reader stands. -/
def text (r : Reader) : List Char :=
  outerText r.enclosing ++ r.frame.text ++ (r.operand?.map Operand.text).getD []

theorem text_leaf? {c : Char} {o : Operand} (leaf : leaf? c = some o) : o.text = [c] := by
  unfold leaf? at leaf
  split at leaf
  · cases leaf
    rfl
  · cases leaf
    rfl
  · obtain ⟨v, found, rfl⟩ := Option.map_eq_some_iff.mp leaf
    rw [Operand.text, Variable.letter_of_ofLetter? found]

theorem text_begin? {f : Frame} {enclosing : List Frame} {c : Char} {r : Reader}
    (begun : begin? f enclosing c = some r) : r.text = outerText enclosing ++ f.text ++ [c] := by
  unfold begin? at begun
  split at begun
  · cases begun
    simp [text, Frame.text_bang]
  · cases begun
    simp [text, outerText, Frame.start, Frame.text]
  · obtain ⟨o, leaf, rfl⟩ := Option.map_eq_some_iff.mp begun
    simp [text, text_leaf? leaf]

theorem text_continue? {f : Frame} {o : Operand} {enclosing : List Frame} {c : Char} {r : Reader}
    (continued : continue? f o enclosing c = some r) :
    r.text = outerText enclosing ++ f.text ++ o.text ++ [c] := by
  unfold continue? at continued
  split at continued
  · cases continued
    simp [text, Operand.text]
  · cases continued
    simp [text, Frame.text_nextProduct]
  · cases continued
    simp [text, Frame.text_nextFactor]
  · split at continued
    · cases continued
    · cases continued
      simp [text, outerText, Operand.text, Frame.text_sum]
  · rw [text_begin? continued, Frame.text_nextFactor]
    simp

/-- A character that is read is added to the text. -/
theorem text_step? {r r' : Reader} {c : Char} (read : r.step? c = some r') :
    r'.text = r.text ++ [c] := by
  obtain ⟨frame, operand?, enclosing⟩ := r
  cases operand? with
  | none =>
      rw [text_begin? read]
      simp [text]
  | some o =>
      rw [text_continue? read]
      simp [text]

theorem text_foldlM {r r' : Reader} {s : List Char} (read : s.foldlM step? r = some r') :
    r'.text = r.text ++ s := by
  induction s generalizing r with
  | nil =>
      cases read
      rw [List.append_nil]
  | cons c rest ih =>
      rw [List.foldlM_cons] at read
      obtain ⟨next, step, read⟩ := Option.bind_eq_some_iff.mp read
      rw [ih read, text_step? step, List.append_assoc, List.singleton_append]

theorem text_finish? {r : Reader} {sum : Sum} (finished : r.finish? = some sum) :
    sum.text = r.text := by
  obtain ⟨frame, operand?, enclosing⟩ := r
  unfold finish? at finished
  split at finished
  · rename_i o here outside
    cases finished
    cases here
    cases outside
    simp [text, outerText, Frame.text_sum]
  · cases finished

/-! ## Reading a phrase -/

theorem leaf?_letter (v : Variable) : leaf? v.letter = some (.letter v) := by
  have found := v.ofLetter?_letter
  unfold leaf?
  split
  · rename_i same
    rw [same] at found
    cases found
  · rename_i same
    rw [same] at found
    cases found
  · rw [found, Option.map_some]

theorem begin?_leaf {c : Char} {o : Operand} (leaf : leaf? c = some o) (f : Frame)
    (enclosing : List Frame) : begin? f enclosing c = some ⟨f, some o, enclosing⟩ := by
  unfold begin?
  split
  · cases leaf
  · cases leaf
  · rw [leaf, Option.map_some]

/-- Without a sign in between, the next factor begins where the last one ended. -/
theorem continue?_of_startsOperand {c : Char} (starts : startsOperand c = true) (f : Frame)
    (o : Operand) (enclosing : List Frame) :
    continue? f o enclosing c = begin? (f.nextFactor o false) enclosing c := by
  unfold continue?
  split
  · cases starts
  · cases starts
  · cases starts
  · cases starts
  · rfl

theorem foldlM_bangs (f : Frame) (enclosing : List Frame) (n : Nat) :
    (List.replicate n '!').foldlM step? ⟨f, none, enclosing⟩ =
      some ⟨{ f with bangs := f.bangs + n }, none, enclosing⟩ := by
  induction n generalizing f with
  | zero => rfl
  | succ n ih =>
      rw [List.replicate_succ, List.foldlM_cons]
      refine (ih { f with bangs := f.bangs + 1 }).trans ?_
      simp only [Nat.add_assoc, Nat.add_comm 1 n]

theorem startsOperand_letter (v : Variable) :
    startsOperand v.letter = true ∧ v.letter ≠ '!' := by
  obtain ⟨index⟩ := v
  revert index
  decide

theorem exists_startsOperand_operand (o : Operand) :
    ∃ c rest, o.text = c :: rest ∧ startsOperand c = true ∧ c ≠ '!' := by
  match o with
  | .letter v => exact ⟨_, _, rfl, startsOperand_letter v⟩
  | .digit b => exact ⟨_, _, rfl, by cases b <;> decide⟩
  | .group s => exact ⟨_, _, rfl, by decide⟩
  | .complement o =>
      obtain ⟨c, rest, text, starts⟩ := exists_startsOperand_operand o
      exact ⟨c, rest ++ ['\x27'], by rw [Operand.text, text, List.cons_append], starts⟩

theorem exists_startsOperand_factor (f : Factor) :
    ∃ c rest, f.text = c :: rest ∧ startsOperand c = true := by
  obtain ⟨bangs, o⟩ := f
  cases bangs with
  | zero =>
      obtain ⟨c, rest, text, starts, _⟩ := exists_startsOperand_operand o
      exact ⟨c, rest, text, starts⟩
  | succ n => exact ⟨_, _, rfl, by decide⟩

/-- A factor behind an operand is read like one behind nothing. -/
theorem foldlM_factor_next (factor : Factor) (f : Frame) (o : Operand) (enclosing : List Frame) :
    factor.text.foldlM step? ⟨f, some o, enclosing⟩ =
      factor.text.foldlM step? ⟨f.nextFactor o false, none, enclosing⟩ := by
  obtain ⟨c, rest, text, starts⟩ := exists_startsOperand_factor factor
  rw [text, List.foldlM_cons, List.foldlM_cons]
  exact congrArg (· >>= _) (continue?_of_startsOperand starts f o enclosing)

mutual

/-- The text of a sum fills the frame of its group. -/
theorem foldlM_sum (s : Sum) (enclosing : List Frame) :
    ∃ f o, f.sum o = s ∧
      s.text.foldlM step? ⟨.start, none, enclosing⟩ = some ⟨f, some o, enclosing⟩ := by
  match s with
  | .one p =>
      obtain ⟨f, o, front, whole, read⟩ := foldlM_product p none enclosing
      exact ⟨f, o, by rw [Frame.sum, front, whole], read⟩
  | .plus s p =>
      obtain ⟨f, o, rfl, read⟩ := foldlM_sum s enclosing
      obtain ⟨f', o', front, whole, readOn⟩ := foldlM_product p (some (f.sum o)) enclosing
      refine ⟨f', o', by rw [Frame.sum, front, whole], ?_⟩
      rw [Sum.text, List.foldlM_append, read]
      exact readOn

/-- The text of a product is read behind whatever precedes it in the sum. -/
theorem foldlM_product (p : Product) (sum? : Option Sum) (enclosing : List Frame) :
    ∃ f o, f.sum? = sum? ∧ f.product o = p ∧
      p.text.foldlM step? ⟨⟨sum?, none, false, 0⟩, none, enclosing⟩ =
        some ⟨f, some o, enclosing⟩ := by
  match p with
  | .one (.mk bangs o) =>
      exact ⟨⟨sum?, none, false, bangs⟩, o, rfl, rfl, foldlM_factor bangs o _ rfl enclosing⟩
  | .times p dot (.mk bangs o) =>
      obtain ⟨f, o', rfl, rfl, read⟩ := foldlM_product p sum? enclosing
      refine ⟨⟨f.sum?, some (f.product o'), dot, bangs⟩, o, rfl, rfl, ?_⟩
      have next := foldlM_factor bangs o (f.nextFactor o' dot) rfl enclosing
      rw [Product.text, List.foldlM_append, List.foldlM_append, read]
      cases dot with
      | true => exact next
      | false => exact (foldlM_factor_next _ f o' enclosing).trans next

/-- The signs and the operand of a factor are read into the frame. -/
theorem foldlM_factor (bangs : Nat) (o : Operand) (f : Frame) (none' : f.bangs = 0)
    (enclosing : List Frame) :
    (Factor.mk bangs o).text.foldlM step? ⟨f, none, enclosing⟩ =
      some ⟨{ f with bangs := bangs }, some o, enclosing⟩ := by
  rw [Factor.text, List.foldlM_append, foldlM_bangs, none', Nat.zero_add]
  exact foldlM_operand o _ enclosing

theorem foldlM_operand (o : Operand) (f : Frame) (enclosing : List Frame) :
    o.text.foldlM step? ⟨f, none, enclosing⟩ = some ⟨f, some o, enclosing⟩ := by
  match o with
  | .letter v => exact congrArg (· >>= _) (begin?_leaf (leaf?_letter v) f enclosing)
  | .digit b => cases b <;> rfl
  | .group s =>
      obtain ⟨f', o', whole, read⟩ := foldlM_sum s (f :: enclosing)
      rw [Operand.text, List.foldlM_append]
      change s.text.foldlM step? ⟨.start, none, f :: enclosing⟩ >>= _ = _
      rw [read, ← whole]
      rfl
  | .complement o =>
      rw [Operand.text, List.foldlM_append, foldlM_operand o f enclosing]
      rfl

end

end Reader

/-- A text spells the sum that is read from it, and no other. -/
theorem Sum.read?_eq_some_iff {s : List Char} {sum : Sum} :
    Sum.read? s = some sum ↔ sum.text = s := by
  constructor
  · intro read
    obtain ⟨r, run, finished⟩ := Option.bind_eq_some_iff.mp read
    rw [Reader.text_finish? finished, Reader.text_foldlM run]
    rfl
  · rintro rfl
    obtain ⟨f, o, whole, read⟩ := Reader.foldlM_sum sum []
    exact (congrArg (· >>= Reader.finish?) read).trans (congrArg some whole)

end Phrase

end SwitchingLogic
