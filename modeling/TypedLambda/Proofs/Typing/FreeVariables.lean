import TypedLambda.Proofs.Expressions
import TypedLambda.Proofs.Typing.FirstFault

/-!
# Checking depends on free variables only

The answer of the checker, a type or an error, depends on the context only through the types of the
variables that are free in the expression. Bindings of other names may be added, dropped, exchanged
or hidden. A variable that is free in an expression with a type is bound, and a variable that the
checker does not find is free and unbound.

A missing variable is a fault at a part of the expression, so it is followed back from that part to
the whole: a name that no function entered on the way has as its parameter stays free.
-/

namespace TypedLambda

namespace Context

/-- The contexts give one type to each free variable of the expression, or none. -/
def AgreeOn (e : Expr) (Γ Γ' : Context) : Prop :=
  ∀ x ∈ e.freeVars, Γ.lookup x = Γ'.lookup x

variable {Γ Γ' : Context} {e : Expr}

theorem AgreeOn.part {part : Expr} (h : AgreeOn e Γ Γ') (hp : part.freeVars ⊆ e.freeVars) :
    AgreeOn part Γ Γ' :=
  fun x hx => h x (hp hx)

/-- Contexts that agree on a function agree on its body, with the parameter added to both. -/
theorem AgreeOn.extend {param : String} {type : Ty} {body : Expr}
    (h : AgreeOn (.lam param type body) Γ Γ') :
    AgreeOn body (Γ.extend param type) (Γ'.extend param type) := by
  intro x hx
  rw [lookup_extend, lookup_extend]
  by_cases hparam : x = param
  · rw [if_pos hparam, if_pos hparam]
  · rw [if_neg hparam, if_neg hparam]
    exact h x (Expr.mem_freeVars_lam.mpr ⟨hx, hparam⟩)

/-- A name without type inside of functions is no parameter and has no type outside. -/
theorem lookup_extendAll_eq_none {params : List (String × Ty)} {x : String}
    (h : (Γ.extendAll params).lookup x = none) : x ∉ params.map Prod.fst ∧ Γ.lookup x = none := by
  induction params generalizing Γ with
  | nil => exact ⟨List.not_mem_nil, h⟩
  | cons param params ih =>
    obtain ⟨hparams, hlookup⟩ := ih h
    rw [lookup_extend] at hlookup
    split at hlookup
    · cases hlookup
    · next hne =>
      refine ⟨?_, hlookup⟩
      rw [List.map_cons, List.mem_cons, not_or]
      exact ⟨hne, hparams⟩

end Context

/-- **In contexts that agree on the free variables the checker gives the same answer.** -/
theorem Expr.check_eq_of_agreeOn {Γ Γ' : Context} {e : Expr} (h : Context.AgreeOn e Γ Γ') :
    e.check Γ = e.check Γ' := by
  induction e generalizing Γ Γ' with
  | var name => rw [check, check, h name (List.mem_singleton.mpr rfl)]
  | lit literal => rfl
  | prim op lhs rhs ihl ihr =>
    rw [check, check, ihl (h.part (List.subset_append_left _ _)),
      ihr (h.part (List.subset_append_right _ _))]
  | ite condition consequent alternative ihc ihy ihn =>
    rw [check, check, ihc (h.part (freeVars_condition_subset ..)),
      ihy (h.part (freeVars_consequent_subset ..)), ihn (h.part (freeVars_alternative_subset ..))]
  | app function argument ihf iha =>
    rw [check, check, ihf (h.part (List.subset_append_left _ _)),
      iha (h.part (List.subset_append_right _ _))]
  | lam param type body ih => rw [check, check, ih h.extend]

/-- **The free variables of an expression with a type are bound.** -/
theorem HasType.exists_lookup {Γ : Context} {e : Expr} {type : Ty} (h : HasType Γ e type)
    {x : String} (hx : x ∈ e.freeVars) : ∃ bound, Γ.lookup x = some bound := by
  induction h with
  | @var Γ name type h =>
    obtain rfl : x = name := List.mem_singleton.mp hx
    exact ⟨type, h⟩
  | int => cases hx
  | bool => cases hx
  | arithmetic _ _ _ ihl ihr => exact (List.mem_append.mp hx).elim ihl ihr
  | logic _ _ _ ihl ihr => exact (List.mem_append.mp hx).elim ihl ihr
  | order _ _ _ ihl ihr => exact (List.mem_append.mp hx).elim ihl ihr
  | equality _ _ _ ihl ihr => exact (List.mem_append.mp hx).elim ihl ihr
  | ite _ _ _ ihc ihy ihn =>
    rcases List.mem_append.mp hx with hx | hx
    · exact (List.mem_append.mp hx).elim ihc ihy
    · exact ihn hx
  | app _ _ ihf iha => exact (List.mem_append.mp hx).elim ihf iha
  | lam _ ih =>
    obtain ⟨hmem, hne⟩ := Expr.mem_freeVars_lam.mp hx
    obtain ⟨bound, hbound⟩ := ih hmem
    rw [Context.lookup_extend, if_neg hne] at hbound
    exact ⟨bound, hbound⟩

/-- What is free in a part is free in the whole, except for the parameters passed on the way. -/
theorem Expr.Reaches.mem_freeVars {Γ : Context} {e part : Expr} {params : List (String × Ty)}
    (h : e.Reaches Γ params part) {x : String} (hx : x ∈ part.freeVars)
    (hparams : x ∉ params.map Prod.fst) : x ∈ e.freeVars := by
  induction h with
  | here => exact hx
  | lhs _ ih => exact List.mem_append_left _ (ih hx hparams)
  | rhs _ _ ih => exact List.mem_append_right _ (ih hx hparams)
  | condition _ ih => exact freeVars_condition_subset _ _ _ (ih hx hparams)
  | consequent _ _ ih => exact freeVars_consequent_subset _ _ _ (ih hx hparams)
  | alternative _ _ _ ih => exact freeVars_alternative_subset _ _ _ (ih hx hparams)
  | function _ ih => exact List.mem_append_left _ (ih hx hparams)
  | argument _ _ ih => exact List.mem_append_right _ (ih hx hparams)
  | body _ ih =>
    rw [List.map_cons, List.mem_cons, not_or] at hparams
    exact mem_freeVars_lam.mpr ⟨ih hx hparams.2, hparams.1⟩

/-- **A variable that the checker does not find is free and unbound.** -/
theorem Expr.mem_freeVars_of_notInScope {Γ : Context} {e : Expr} {x : String}
    (h : e.check Γ = .error (.notInScope x)) : x ∈ e.freeVars ∧ Γ.lookup x = none := by
  obtain ⟨params, part, hreaches, hfault⟩ := firstFault_of_check h
  cases hfault with
  | unbound hbindings =>
    obtain ⟨hparams, hlookup⟩ :=
      Context.lookup_extendAll_eq_none (Context.lookup_eq_none_iff.mpr hbindings)
    exact ⟨hreaches.mem_freeVars (List.mem_singleton.mpr rfl) hparams, hlookup⟩

/--
**Checking depends on free variables only.** Contexts that give the same types to the free variables
of an expression give it the same type or the same error. If it has a type, all of its free
variables are bound, and a variable that is reported as not in scope is free and unbound.
-/
theorem check_depends_on_free_variables (e : Expr) :
    (∀ Γ Γ' : Context, (∀ x ∈ e.freeVars, Γ.lookup x = Γ'.lookup x) → e.check Γ = e.check Γ') ∧
    (∀ (Γ : Context) (type : Ty), e.check Γ = .ok type →
      ∀ x ∈ e.freeVars, ∃ bound, Γ.lookup x = some bound) ∧
    ∀ (Γ : Context) (x : String), e.check Γ = .error (.notInScope x) →
      x ∈ e.freeVars ∧ Γ.lookup x = none :=
  ⟨fun _ _ h => Expr.check_eq_of_agreeOn h,
    fun _ _ h _ hx => (HasType.hasType_of_check h).exists_lookup hx,
    fun _ _ h => Expr.mem_freeVars_of_notInScope h⟩

/-- A function that adds a variable of the context to its parameter. -/
def addsX : Expr := .lam "y" .int (.prim .add (.var "x") (.var "y"))

/--
One context has a binding of `x` that is hidden and another type for the parameter. In the second
expression a parameter hides the missing name from the body of the function, not from the argument.
-/
theorem check_depends_on_free_variables_hidden :
    addsX.check (.ofList [("x", .int)])
      = addsX.check (.ofList [("x", .bool), ("y", .bool), ("x", .int)]) ∧
    (addsX.check (.ofList [("x", .int)]) = .ok (.arrow .int .int) ∧
      ∃ bound, (Context.ofList [("x", .int)]).lookup "x" = some bound) ∧
    (Expr.check .empty (.app (.lam "z" .int (.var "z")) (.var "z")) = .error (.notInScope "z") ∧
      "z" ∈ (Expr.app (.lam "z" .int (.var "z")) (.var "z")).freeVars ∧
      Context.empty.lookup "z" = none) := by
  obtain ⟨hsame, hbound, -⟩ := check_depends_on_free_variables addsX
  obtain ⟨-, -, hmissing⟩ :=
    check_depends_on_free_variables (.app (.lam "z" .int (.var "z")) (.var "z"))
  refine ⟨hsame _ _ fun x hx => ?_, ⟨rfl, hbound _ _ rfl "x" (by decide)⟩, rfl, hmissing _ _ rfl⟩
  obtain rfl : x = "x" := by simpa [addsX, Expr.freeVars] using hx
  rfl

end TypedLambda
