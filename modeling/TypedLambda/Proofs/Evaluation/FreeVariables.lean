import TypedLambda.Proofs.Evaluation.Simulation
import TypedLambda.Proofs.Expressions

/-!
# Evaluation depends on free variables only

What an expression is evaluated to depends on the scope only through the values of the variables
that are free in the expression. Scopes that agree on those may differ in everything else, and the
difference stays: it is kept in the closures that are made on the way. So closures are compared in
turn by what their scopes bind the free variables of the function to, and evaluation in the two
scopes is a simulation.

Bindings that are not used, that are hidden by another one, or that stand in another order make no
difference to what a name resolves to, and so none to evaluation.
-/

namespace TypedLambda

/-! ## Values and scopes that are alike -/

/--
The same literal, or closures of one function whose scopes bind each of its free variables to values
that are alike, or leave it unbound on both sides.
-/
inductive Value.Alike : Value → Value → Prop
  | lit (literal : Literal) : Alike (.lit literal) (.lit literal)
  | closure {param : String} {body : Expr} {scope scope' : Scope}
    (h : ∀ x ∈ body.freeVars, x ≠ param →
      Option.Rel Alike (scope.resolve x) (scope'.resolve x)) :
    Alike (.closure param body scope) (.closure param body scope')

/-- Each free variable of the expression is bound to values that are alike, or to none. -/
def Scope.AgreeOn (e : Expr) (scope scope' : Scope) : Prop :=
  ∀ x ∈ e.freeVars, Option.Rel Value.Alike (scope.resolve x) (scope'.resolve x)

mutual

theorem Value.alike_refl : (value : Value) → value.Alike value
  | .lit literal => .lit literal
  | .closure _ _ scope => .closure fun x _ _ => Scope.resolve_alike scope x

theorem Scope.resolve_alike : (scope : Scope) → (x : String) →
    Option.Rel Value.Alike (scope.resolve x) (scope.resolve x)
  | .empty, _ => .none
  | .bind outer name value, x => by
    rw [Scope.resolve]
    split
    · exact .some (Value.alike_refl value)
    · exact Scope.resolve_alike outer x

end

namespace Scope

variable {scope scope' : Scope} {e : Expr}

/-- Scopes that agree on an expression agree on a part with no other free variables. -/
theorem AgreeOn.part {part : Expr} (h : AgreeOn e scope scope')
    (hp : part.freeVars ⊆ e.freeVars) : AgreeOn part scope scope' :=
  fun x hx => h x (hp hx)

/-- Scopes that bind the free variables to the same values agree. -/
theorem agreeOn_of_resolve_eq (h : ∀ x ∈ e.freeVars, scope.resolve x = scope'.resolve x) :
    AgreeOn e scope scope' := by
  intro x hx
  rw [h x hx]
  exact resolve_alike scope' x

/-- Closures that are alike go on in scopes that agree. -/
theorem agreeOn_bind {param : String} {body : Expr} {value value' : Value}
    (h : ∀ x ∈ body.freeVars, x ≠ param →
      Option.Rel Value.Alike (scope.resolve x) (scope'.resolve x))
    (hv : value.Alike value') :
    AgreeOn body (scope.bind param value) (scope'.bind param value') := by
  intro x hx
  rw [resolve, resolve]
  by_cases hparam : param = x
  · rw [if_pos hparam, if_pos hparam]
    exact .some hv
  · rw [if_neg hparam, if_neg hparam]
    exact h x hx fun heq => hparam heq.symm

end Scope

/-! ## Evaluation in scopes that agree -/

/-- Evaluation of one expression goes in step in scopes that agree on its free variables. -/
theorem simulation_alike :
    Simulation Value.Alike fun scope e scope' e' => e = e' ∧ Scope.AgreeOn e scope scope' where
  literal := .lit
  value := by
    intro v v' h
    cases h with
    | lit literal => exact .lit literal
    | closure hscope =>
      exact .closure fun value value' hvalue => ⟨rfl, Scope.agreeOn_bind hscope hvalue⟩
  run := by
    rintro scope scope' e _ ⟨rfl, h⟩
    cases e with
    | var name =>
      have hname := h name (List.mem_singleton.mpr rfl)
      generalize hx : scope.resolve name = found, hx' : scope'.resolve name = found' at hname
      cases hname with
      | none => exact .unbound hx hx'
      | some hv => exact .bound hx hx' hv
    | lit literal => exact .lit literal
    | prim op lhs rhs =>
      exact .prim op ⟨rfl, h.part (List.subset_append_left _ _)⟩
        ⟨rfl, h.part (List.subset_append_right _ _)⟩
    | ite condition consequent alternative =>
      exact .ite ⟨rfl, h.part (Expr.freeVars_condition_subset ..)⟩
        ⟨rfl, h.part (Expr.freeVars_consequent_subset ..)⟩
        ⟨rfl, h.part (Expr.freeVars_alternative_subset ..)⟩
    | app function argument =>
      exact .app ⟨rfl, h.part (List.subset_append_left _ _)⟩
        ⟨rfl, h.part (List.subset_append_right _ _)⟩
    | lam param type body =>
      exact .lam (.closure fun x hx hne => h x (Expr.mem_freeVars_lam.mpr ⟨hx, hne⟩))

/-! ## Bindings that make no difference -/

namespace Scope

/-- The scope with more bindings, of which a later one is inside of an earlier one. -/
def bindAll (scope : Scope) (bindings : List (String × Value)) : Scope :=
  bindings.foldl (fun scope binding => scope.bind binding.1 binding.2) scope

/-- Neighbouring bindings of different names can be exchanged. -/
theorem resolve_bind_comm {scope : Scope} {x y : String} (hne : x ≠ y) (v w : Value) (z : String) :
    ((scope.bind x v).bind y w).resolve z = ((scope.bind y w).bind x v).resolve z := by
  simp only [resolve]
  by_cases hx : x = z
  · have hy : y ≠ z := fun hy => hne (hx.trans hy.symm)
    rw [if_neg hy, if_pos hx, if_pos hx]
  · rw [if_neg hx, if_neg hx]

/-- Inner bindings hide the difference between two scopes, or do not touch it. -/
theorem resolve_bindAll_congr {x : String} (inner : List (String × Value)) {scope scope' : Scope}
    (h : x ∈ inner.map Prod.fst ∨ scope.resolve x = scope'.resolve x) :
    (scope.bindAll inner).resolve x = (scope'.bindAll inner).resolve x := by
  induction inner generalizing scope scope' with
  | nil => exact h.resolve_left List.not_mem_nil
  | cons binding inner ih =>
    refine ih ?_
    rw [resolve, resolve]
    by_cases hname : binding.1 = x
    · rw [if_pos hname, if_pos hname]
      exact Or.inr rfl
    · rw [if_neg hname, if_neg hname]
      rw [List.map_cons, List.mem_cons, or_assoc] at h
      exact h.resolve_left fun heq => hname heq.symm

end Scope

/--
**Evaluation depends on free variables only.** In scopes that bind the free variables of an
expression to values that are alike, or not at all, both evaluations return or neither does, and
then with the same failure or with values that are alike, which have one kind and one text. So a
binding that is not used or is hidden can be left out, and bindings of two names can be exchanged.
-/
theorem eval_depends_on_free_variables (e : Expr) :
    (∀ scope scope' : Scope, Scope.AgreeOn e scope scope' →
      ReturnAlike Value.Alike scope e scope' e) ∧
    (∀ v v' : Value, v.Alike v' → v.kind = v'.kind ∧ v.text = v'.text) ∧
    (∀ (scope : Scope) (x : String) (value : Value) (inner : List (String × Value)),
      x ∉ e.freeVars ∨ x ∈ inner.map Prod.fst →
      ReturnAlike Value.Alike ((scope.bind x value).bindAll inner) e (scope.bindAll inner) e) ∧
    ∀ (scope : Scope) (x y : String) (v w : Value) (inner : List (String × Value)), x ≠ y →
      ReturnAlike Value.Alike (((scope.bind x v).bind y w).bindAll inner) e
        (((scope.bind y w).bind x v).bindAll inner) e := by
  have hagree : ∀ scope scope', Scope.AgreeOn e scope scope' →
      ReturnAlike Value.Alike scope e scope' e :=
    fun scope scope' h => simulation_alike.returnAlike ⟨rfl, h⟩
  refine ⟨hagree, ?_, ?_, ?_⟩
  · intro v v' h
    have hmatches := simulation_alike.value h
    exact ⟨hmatches.kind_eq, hmatches.text_eq⟩
  · intro scope x value inner hx
    refine hagree _ _ (Scope.agreeOn_of_resolve_eq fun z hz => Scope.resolve_bindAll_congr inner ?_)
    by_cases hxz : x = z
    · subst hxz
      exact Or.inl (hx.resolve_left fun hunused => hunused hz)
    · exact Or.inr (by rw [Scope.resolve, if_neg hxz])
  · intro scope x y v w inner hne
    exact hagree _ _ (Scope.agreeOn_of_resolve_eq fun z _ =>
      Scope.resolve_bindAll_congr inner (Or.inr (Scope.resolve_bind_comm hne v w z)))

/-- A function that is returned from a call and calls a function of the scope itself. -/
def escaping : Expr :=
  .app (.lam "z" .int (.lam "y" .int (.app (.var "f") (.prim .add (.var "z") (.var "y")))))
    (.var "x")

/-- The function that adds the value of `k`, in a scope. -/
def addsK (scope : Scope) : Value := .closure "n" (.prim .add (.var "n") (.var "k")) scope

/-- A scope with a value for `x` and a function for `f`. -/
def plainScope : Scope :=
  .ofList [("x", .lit (.int 2)), ("f", addsK (.ofList [("k", .lit (.int 1))]))]

/-- A scope that binds `x` twice and after `f`, whose own scope has a binding more than needed. -/
def crowdedScope : Scope :=
  .ofList [("x", .lit (.bool true)),
    ("f", addsK (.ofList [("k", .lit (.int 1)), ("n", .lit (.int 5))])), ("x", .lit (.int 2))]

theorem agreeOn_crowdedScope : Scope.AgreeOn escaping plainScope crowdedScope := by
  intro x hx
  obtain rfl | rfl : x = "f" ∨ x = "x" := by simpa [escaping, Expr.freeVars] using hx
  · refine .some (.closure fun x hx hne => ?_)
    obtain rfl : x = "k" := by simpa [Expr.freeVars, hne] using hx
    exact .some (.lit _)
  · exact .some (.lit _)

/-- The closures that are returned keep the difference between the two scopes. -/
theorem eval_depends_on_free_variables_escaping :
    Scope.AgreeOn escaping plainScope crowdedScope ∧
      Outcome.Related Value.Alike
        (some (.ok (.closure "y" (.app (.var "f") (.prim .add (.var "z") (.var "y")))
          (plainScope.bind "z" (.lit (.int 2))))))
        (some (.ok (.closure "y" (.app (.var "f") (.prim .add (.var "z") (.var "y")))
          (crowdedScope.bind "z" (.lit (.int 2)))))) ∧
      ReturnAlike Value.Alike (plainScope.bind "y" (.lit (.int 0))) escaping plainScope escaping ∧
      ReturnAlike Value.Alike ((plainScope.bind "f" (.lit (.int 0))).bind "x" (.lit (.int 1)))
        escaping ((plainScope.bind "x" (.lit (.int 1))).bind "f" (.lit (.int 0))) escaping := by
  obtain ⟨hagree, -, hunused, hexchange⟩ := eval_depends_on_free_variables escaping
  have hresults := (hagree _ _ agreeOn_crowdedScope).results
    (rfl : escaping.eval 3 plainScope = some _) (rfl : escaping.eval 3 crowdedScope = some _)
  exact ⟨agreeOn_crowdedScope, hresults, hunused _ "y" _ [] (Or.inl (by decide)),
    hexchange _ "f" "x" _ _ [] (by decide)⟩

end TypedLambda
