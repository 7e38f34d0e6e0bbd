import TypedLambda.Expr

/-!
# Notions about expressions

What the theory says about expressions in many places, whether they are checked, evaluated or
substituted: which variables are free in them, which of them differ in the types of parameters only,
and which word an integer wraps around to.
-/

namespace TypedLambda

namespace Expr

/-! ## Free variables -/

/-- The variables that occur outside every function that binds them. -/
def freeVars : Expr → List String
  | var name => [name]
  | lit _ => []
  | prim _ lhs rhs => lhs.freeVars ++ rhs.freeVars
  | ite condition consequent alternative =>
    condition.freeVars ++ consequent.freeVars ++ alternative.freeVars
  | app function argument => function.freeVars ++ argument.freeVars
  | lam param _ body => body.freeVars.filter (· ≠ param)

/-- No variable occurs free. -/
def Closed (e : Expr) : Prop := e.freeVars = []

instance (e : Expr) : Decidable e.Closed := inferInstanceAs (Decidable (_ = _))

variable {x : String} {e : Expr}

/-- A function binds its parameter and nothing else. -/
theorem mem_freeVars_lam {param : String} {type : Ty} {body : Expr} :
    x ∈ (lam param type body).freeVars ↔ x ∈ body.freeVars ∧ x ≠ param := by
  simp [freeVars]

theorem freeVars_condition_subset (condition consequent alternative : Expr) :
    condition.freeVars ⊆ (ite condition consequent alternative).freeVars :=
  fun _ h => List.mem_append_left _ (List.mem_append_left _ h)

theorem freeVars_consequent_subset (condition consequent alternative : Expr) :
    consequent.freeVars ⊆ (ite condition consequent alternative).freeVars :=
  fun _ h => List.mem_append_left _ (List.mem_append_right _ h)

theorem freeVars_alternative_subset (condition consequent alternative : Expr) :
    alternative.freeVars ⊆ (ite condition consequent alternative).freeVars :=
  fun _ h => List.mem_append_right _ h

theorem Closed.not_mem (h : e.Closed) : x ∉ e.freeVars := by
  rw [show e.freeVars = [] from h]
  exact List.not_mem_nil

/-- An expression in which no name is free is closed. -/
theorem closed_of_not_mem (h : ∀ x, x ∉ e.freeVars) : e.Closed :=
  List.eq_nil_iff_forall_not_mem.mpr h

/-! ## Types of parameters -/

/-- The expression with one and the same type at every parameter. -/
def bare : Expr → Expr
  | var name => var name
  | lit literal => lit literal
  | prim op lhs rhs => prim op lhs.bare rhs.bare
  | ite condition consequent alternative => ite condition.bare consequent.bare alternative.bare
  | app function argument => app function.bare argument.bare
  | lam param _ body => lam param .int body.bare

/-- Literals have no types to be dropped. -/
theorem eq_lit_of_bare {literal : Literal} (h : e.bare = .lit literal) : e = .lit literal := by
  cases e <;> simp_all [bare]

/-- Only a function is a function without its types. -/
theorem exists_eq_lam_of_bare {param : String} {type : Ty} {body : Expr}
    (h : e.bare = .lam param type body) :
    ∃ type' body', e = .lam param type' body' ∧ body'.bare = body := by
  cases e with
  | lam param' type' body' =>
    simp only [bare, lam.injEq] at h
    exact ⟨type', body', by rw [h.1], h.2.2⟩
  | _ => cases h

end Expr

/-! ## Integers -/

/-- The integer of 64 bits with sign that an integer wraps around to. -/
def wrap (n : Int) : Int64 := Int64.ofInt n

end TypedLambda
