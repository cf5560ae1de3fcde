import SwitchingLogic.Expr.Printer
import SwitchingLogic.Proofs.Expr.Balance

/-!
# Regrouped chains

Brackets between the operands of one chain carry no meaning.  Trees that differ only in them have
the same value and the same infix texts, whatever the signs of the notation.  Every tree can be
regrouped into its balanced form, so trees with the same balanced form are regroupings of each
other.
-/

namespace SwitchingLogic.Expr

/-- Two trees agree up to the brackets between the operands of their chains. -/
inductive Regrouped : Expr → Expr → Prop where
  | refl (e : Expr) : Regrouped e e
  | symm {e f : Expr} (same : Regrouped e f) : Regrouped f e
  | trans {e f g : Expr} (first : Regrouped e f) (second : Regrouped f g) : Regrouped e g
  | assoc (op : Connective) (a b c : Expr) :
      Regrouped (.binary op (.binary op a b) c) (.binary op a (.binary op b c))
  | not {e f : Expr} (operand : Regrouped e f) : Regrouped (.not e) (.not f)
  | binary (op : Connective) {l l' r r' : Expr} (left : Regrouped l l') (right : Regrouped r r') :
      Regrouped (.binary op l r) (.binary op l' r')

theorem Regrouped.eval_eq {e f : Expr} (same : e.Regrouped f) (s : State) :
    e.eval s = f.eval s := by
  induction same with
  | refl e => rfl
  | symm _ ih => exact ih.symm
  | trans _ _ ihFirst ihSecond => exact ihFirst.trans ihSecond
  | assoc op a b c =>
      cases op with
      | and => exact Bool.and_assoc _ _ _
      | or => exact Bool.or_assoc _ _ _
  | not _ ih => exact congrArg (!·) ih
  | binary op _ _ ihLeft ihRight => rw [eval, eval, ihLeft, ihRight]

theorem Regrouped.isAtomic_eq {e f : Expr} (same : e.Regrouped f) : e.isAtomic = f.isAtomic := by
  induction same with
  | refl e => rfl
  | symm _ ih => exact ih.symm
  | trans _ _ ihFirst ihSecond => exact ihFirst.trans ihSecond
  | assoc op a b c => rfl
  | not _ ih => rfl
  | binary op _ _ ihLeft ihRight => rfl

/-- Below a chain its own connective needs no parentheses. -/
theorem render_binary_self (style : Style) (op : Connective) (l r : Expr) :
    (binary op l r).render style (some op) =
      l.render style (some op) ++ style.sign op ++ r.render style (some op) := by
  simp [render, grouped]

theorem Regrouped.render_eq {e f : Expr} (same : e.Regrouped f) (style : Style)
    (parent : Option Connective) : e.render style parent = f.render style parent := by
  induction same generalizing parent with
  | refl e => rfl
  | symm _ ih => exact (ih parent).symm
  | trans _ _ ihFirst ihSecond => exact (ihFirst parent).trans (ihSecond parent)
  | assoc op a b c =>
      rw [render, render_binary_self, render, render_binary_self]
      simp only [List.append_assoc]
  | not operand ih => rw [render, render, operand.isAtomic_eq, ih]
  | binary op _ _ ihLeft ihRight => rw [render, render, ihLeft, ihRight]

/-- The chain over a list of operands, grouped to the right. -/
def nest (op : Connective) : List Expr → Expr
  | [] => .const op.identity
  | [e] => e
  | e :: rest => .binary op e (nest op rest)

theorem nest_cons (op : Connective) (e : Expr) {rest : List Expr} (some' : rest ≠ []) :
    nest op (e :: rest) = .binary op e (nest op rest) := by
  cases rest with
  | nil => exact absurd rfl some'
  | cons f rest => rfl

theorem regrouped_nest_append (op : Connective) {es fs : List Expr} (front : es ≠ [])
    (back : fs ≠ []) :
    (binary op (nest op es) (nest op fs)).Regrouped (nest op (es ++ fs)) := by
  induction es with
  | nil => exact absurd rfl front
  | cons e es ih =>
      by_cases last : es = []
      · subst last
        rw [List.singleton_append, nest_cons op e back]
        exact .refl _
      · have whole : es ++ fs ≠ [] := List.append_ne_nil_of_left_ne_nil last fs
        rw [List.cons_append, nest_cons op e last, nest_cons op e whole]
        exact .trans (.assoc op _ _ _) (.binary op (.refl e) (ih last))

theorem regrouped_operands (op : Connective) (e : Expr) :
    e.Regrouped (nest op (e.operands op)) := by
  induction e using chain_induction op with
  | other e root =>
      rw [operands_eq_singleton root]
      exact .refl e
  | chain l r ihl ihr =>
      rw [operands_binary]
      exact .trans (.binary op ihl ihr)
        (regrouped_nest_append op (operands_ne_nil op l) (operands_ne_nil op r))

theorem regrouped_join (op : Connective) {es : List Expr} (some' : es ≠ []) :
    (join op es).Regrouped (nest op es) := by
  refine join_induction op (motive := fun es tree => tree.Regrouped (nest op es))
    (fun e => ?_) (fun _ _ front back ihFront ihBack => ?_) some'
  · exact .refl e
  · exact .trans (.binary op ihFront ihBack) (regrouped_nest_append op front back)

theorem regrouped_nest_map (op : Connective) {g : Expr → Expr} {es : List Expr}
    (each : ∀ e ∈ es, e.Regrouped (g e)) : (nest op es).Regrouped (nest op (es.map g)) := by
  induction es with
  | nil => exact .refl _
  | cons e es ih =>
      have here : e.Regrouped (g e) := each e List.mem_cons_self
      have later := ih fun f mem => each f (List.mem_cons_of_mem e mem)
      by_cases last : es = []
      · subst last
        exact here
      · have mapped : es.map g ≠ [] := mt List.map_eq_nil_iff.mp last
        rw [List.map_cons, nest_cons op e last, nest_cons op (g e) mapped]
        exact .binary op here later

/-- Balancing regroups the chains of a tree and does nothing else. -/
theorem regrouped_balance (e : Expr) : e.Regrouped e.balance := by
  induction e using balance.induct with
  | case1 v =>
      rw [balance_var]
      exact .refl _
  | case2 b =>
      rw [balance_const]
      exact .refl _
  | case3 e ih =>
      rw [balance_not]
      exact .not ih
  | case4 op l r ih =>
      have some' : ((binary op l r).operands op).map balance ≠ [] :=
        mt List.map_eq_nil_iff.mp (operands_ne_nil op _)
      have inside : (nest op ((binary op l r).operands op)).Regrouped
          (nest op (((binary op l r).operands op).map balance)) := regrouped_nest_map op ih
      rw [balance_binary]
      exact .trans (.trans (regrouped_operands op _) inside) (.symm (regrouped_join op some'))

theorem Regrouped.of_balance_eq {e f : Expr} (same : e.balance = f.balance) : e.Regrouped f :=
  .trans (same ▸ regrouped_balance e) (.symm (regrouped_balance f))

end SwitchingLogic.Expr
