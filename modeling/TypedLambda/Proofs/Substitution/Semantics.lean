import TypedLambda.Proofs.Expressions

/-!
# Call by value by substitution

What a closed expression evaluates to, stated without scopes and closures: a value is a literal or a
function, and a call puts the value of its argument into the body of the function. Only the branch
that a condition selects is evaluated. Sums and products are taken in the integers and then wrapped.

**Main statements.** A closed expression has at most one value (`BigStep.unique`), and the types
written at the parameters have no influence on it (`BigStep.of_bare_eq`).
-/

namespace TypedLambda

namespace Expr

/-! ## Substitution -/

/-- Puts a closed expression in the place of a variable, except where a function binds it anew. -/
def subst : Expr → (x : String) → (v : Expr) → Expr
  | var name, x, v => if name = x then v else var name
  | lit literal, _, _ => lit literal
  | prim op lhs rhs, x, v => prim op (lhs.subst x v) (rhs.subst x v)
  | ite condition consequent alternative, x, v =>
    ite (condition.subst x v) (consequent.subst x v) (alternative.subst x v)
  | app function argument, x, v => app (function.subst x v) (argument.subst x v)
  | lam param type body, x, v => lam param type (if param = x then body else body.subst x v)

variable {x y : String} {e v w : Expr}

/-- Substitution for a variable that does not occur free changes nothing. -/
theorem subst_of_not_mem (h : x ∉ e.freeVars) : e.subst x v = e := by
  induction e with
  | var name =>
    have hne : name ≠ x := fun heq => h (by simp [freeVars, heq])
    rw [subst, if_neg hne]
  | lit literal => rfl
  | prim op lhs rhs ihl ihr =>
    simp only [freeVars, List.mem_append, not_or] at h
    rw [subst, ihl h.1, ihr h.2]
  | ite condition consequent alternative ihc ihy ihn =>
    simp only [freeVars, List.mem_append, not_or] at h
    rw [subst, ihc h.1.1, ihy h.1.2, ihn h.2]
  | app function argument ihf iha =>
    simp only [freeVars, List.mem_append, not_or] at h
    rw [subst, ihf h.1, iha h.2]
  | lam param type body ih =>
    rw [mem_freeVars_lam, not_and, Decidable.not_not] at h
    rw [subst]
    split
    · rfl
    · next hne => rw [ih fun hmem => hne (h hmem).symm]

theorem Closed.subst_eq (h : e.Closed) : e.subst x v = e := subst_of_not_mem h.not_mem

/-- Putting in a closed expression removes the variable and adds none. -/
theorem mem_freeVars_subst (hv : v.Closed) (h : y ∈ (e.subst x v).freeVars) :
    y ∈ e.freeVars ∧ y ≠ x := by
  induction e with
  | var name =>
    rw [subst] at h
    split at h
    · exact absurd h hv.not_mem
    · next hne =>
      obtain rfl : y = name := List.mem_singleton.mp h
      exact ⟨h, hne⟩
  | lit literal => exact absurd h List.not_mem_nil
  | prim op lhs rhs ihl ihr =>
    simp only [subst, freeVars, List.mem_append] at h ⊢
    rcases h with h | h
    · exact ⟨Or.inl (ihl h).1, (ihl h).2⟩
    · exact ⟨Or.inr (ihr h).1, (ihr h).2⟩
  | ite condition consequent alternative ihc ihy ihn =>
    simp only [subst, freeVars, List.mem_append] at h ⊢
    rcases h with (h | h) | h
    · exact ⟨Or.inl (Or.inl (ihc h).1), (ihc h).2⟩
    · exact ⟨Or.inl (Or.inr (ihy h).1), (ihy h).2⟩
    · exact ⟨Or.inr (ihn h).1, (ihn h).2⟩
  | app function argument ihf iha =>
    simp only [subst, freeVars, List.mem_append] at h ⊢
    rcases h with h | h
    · exact ⟨Or.inl (ihf h).1, (ihf h).2⟩
    · exact ⟨Or.inr (iha h).1, (iha h).2⟩
  | lam param type body ih =>
    rw [subst, mem_freeVars_lam] at h
    rw [mem_freeVars_lam]
    obtain ⟨h, hparam⟩ := h
    split at h
    · next heq => exact ⟨⟨h, hparam⟩, fun hyx => hparam (hyx.trans heq.symm)⟩
    · exact ⟨⟨(ih h).1, hparam⟩, (ih h).2⟩

/-- Closed expressions can be put in for two variables in either order. -/
theorem subst_comm (hne : x ≠ y) (hv : v.Closed) (hw : w.Closed) :
    (e.subst x v).subst y w = (e.subst y w).subst x v := by
  induction e with
  | var name =>
    by_cases hx : name = x
    · have hy : name ≠ y := fun hy => hne (hx.symm.trans hy)
      simp only [subst, if_pos hx, if_neg hy, hv.subst_eq]
    · by_cases hy : name = y
      · simp only [subst, if_neg hx, if_pos hy, hw.subst_eq]
      · simp only [subst, if_neg hx, if_neg hy]
  | lit literal => rfl
  | prim op lhs rhs ihl ihr => simp only [subst, ihl, ihr]
  | ite condition consequent alternative ihc ihy ihn => simp only [subst, ihc, ihy, ihn]
  | app function argument ihf iha => simp only [subst, ihf, iha]
  | lam param type body ih =>
    by_cases hx : param = x
    · simp only [subst, if_pos hx]
    · by_cases hy : param = y
      · simp only [subst, if_neg hx, if_pos hy]
      · simp only [subst, if_neg hx, if_neg hy, ih]

/-- Types of parameters are left out before or after substitution. -/
theorem bare_subst : (e.subst x v).bare = e.bare.subst x v.bare := by
  induction e with
  | var name =>
    rw [subst, bare, subst]
    split <;> rfl
  | lit literal => rfl
  | prim op lhs rhs ihl ihr => simp only [subst, bare, ihl, ihr]
  | ite condition consequent alternative ihc ihy ihn => simp only [subst, bare, ihc, ihy, ihn]
  | app function argument ihf iha => simp only [subst, bare, ihf, iha]
  | lam param type body ih =>
    simp only [subst, bare]
    split
    · rfl
    · rw [ih]

end Expr

/-! ## Operators -/

/-- The literal that an operator gives for two literals of the kinds that it takes. -/
def Op.literal : Op → Literal → Literal → Option Literal
  | add, .int a, .int b => some (.int (wrap (a.toInt + b.toInt)))
  | mul, .int a, .int b => some (.int (wrap (a.toInt * b.toInt)))
  | less, .int a, .int b => some (.bool (decide (a.toInt < b.toInt)))
  | greater, .int a, .int b => some (.bool (decide (b.toInt < a.toInt)))
  | equal, .int a, .int b => some (.bool (decide (a.toInt = b.toInt)))
  | equal, .bool a, .bool b => some (.bool (decide (a = b)))
  | and, .bool a, .bool b => some (.bool (a && b))
  | or, .bool a, .bool b => some (.bool (a || b))
  | _, _, _ => none

/-! ## Evaluation -/

/-- A closed expression has a value, which is a literal or a function. -/
inductive BigStep : Expr → Expr → Prop
  | lit {literal : Literal} : BigStep (.lit literal) (.lit literal)
  | lam {param : String} {type : Ty} {body : Expr} :
    BigStep (.lam param type body) (.lam param type body)
  | prim {op : Op} {lhs rhs : Expr} {a b c : Literal} (hl : BigStep lhs (.lit a))
    (hr : BigStep rhs (.lit b)) (hop : op.literal a b = some c) :
    BigStep (.prim op lhs rhs) (.lit c)
  | ite {condition consequent alternative v : Expr} {b : Bool}
    (hc : BigStep condition (.lit (.bool b)))
    (hv : BigStep (if b then consequent else alternative) v) :
    BigStep (.ite condition consequent alternative) v
  | app {function argument body a v : Expr} {param : String} {type : Ty}
    (hf : BigStep function (.lam param type body)) (ha : BigStep argument a)
    (hb : BigStep (body.subst param a) v) : BigStep (.app function argument) v

namespace BigStep

variable {e e' v w : Expr}

/-- **An expression has at most one value.** -/
theorem unique (h : BigStep e v) (h' : BigStep e w) : v = w := by
  induction h generalizing w with
  | lit =>
    cases h'
    rfl
  | lam =>
    cases h'
    rfl
  | prim hl hr hop ihl ihr =>
    cases h' with
    | prim hl' hr' hop' =>
      cases ihl hl'
      cases ihr hr'
      rw [hop] at hop'
      rw [Option.some.inj hop']
  | ite hc hv ihc ihv =>
    cases h' with
    | ite hc' hv' =>
      cases ihc hc'
      exact ihv hv'
  | app hf ha hb ihf iha ihb =>
    cases h' with
    | app hf' ha' hb' =>
      cases ihf hf'
      cases iha ha'
      exact ihb hb'

/-- **The types at the parameters have no influence on evaluation.** -/
theorem of_bare_eq (h : BigStep e v) (heq : e'.bare = e.bare) :
    ∃ v', BigStep e' v' ∧ v'.bare = v.bare := by
  induction h generalizing e' with
  | lit =>
    rw [Expr.eq_lit_of_bare heq]
    exact ⟨_, .lit, rfl⟩
  | lam =>
    obtain ⟨type', body', rfl, -⟩ := Expr.exists_eq_lam_of_bare heq
    exact ⟨_, .lam, heq⟩
  | prim hl hr hop ihl ihr =>
    cases e' with
    | prim op' lhs' rhs' =>
      simp only [Expr.bare, Expr.prim.injEq] at heq
      obtain ⟨rfl, hlhs, hrhs⟩ := heq
      obtain ⟨a', hl', ha⟩ := ihl hlhs
      obtain ⟨b', hr', hb⟩ := ihr hrhs
      rw [Expr.eq_lit_of_bare ha] at hl'
      rw [Expr.eq_lit_of_bare hb] at hr'
      exact ⟨_, .prim hl' hr' hop, rfl⟩
    | _ => cases heq
  | @ite condition consequent alternative v b hc hv ihc ihv =>
    cases e' with
    | ite condition' consequent' alternative' =>
      simp only [Expr.bare, Expr.ite.injEq] at heq
      obtain ⟨hcond, hyes, hno⟩ := heq
      obtain ⟨test, hc', htest⟩ := ihc hcond
      rw [Expr.eq_lit_of_bare htest] at hc'
      have hpicked : (if b then consequent' else alternative').bare
          = (if b then consequent else alternative).bare := by
        cases b
        · exact hno
        · exact hyes
      obtain ⟨v', hv', hbare⟩ := ihv hpicked
      exact ⟨v', .ite hc' hv', hbare⟩
    | _ => cases heq
  | @app function argument body a v param type hf ha hb ihf iha ihb =>
    cases e' with
    | app function' argument' =>
      simp only [Expr.bare, Expr.app.injEq] at heq
      obtain ⟨f', hf', hfun⟩ := ihf heq.1
      obtain ⟨a', ha', harg⟩ := iha heq.2
      obtain ⟨type', body', rfl, hbody⟩ := Expr.exists_eq_lam_of_bare hfun
      have hcall : (body'.subst param a').bare = (body.subst param a).bare := by
        rw [Expr.bare_subst, Expr.bare_subst, hbody, harg]
      obtain ⟨v', hb', hbare⟩ := ihb hcall
      exact ⟨v', .app hf' ha' hb', hbare⟩
    | _ => cases heq

end BigStep

end TypedLambda
