import TypedLambda.Proofs.Evaluation.Simulation
import TypedLambda.Typing.Check

/-!
# Names of parameters do not matter

Two expressions that differ in the names of their parameters only have the same type or the same
type error, and are evaluated to the same literal, to the same failure, or to closures that differ
in the names of their parameters only. Names that are not bound keep their meaning: they are the
same in both expressions.

An expression under binders is compared along the list of the parameters passed on the way, one pair
for each binder. Checking and evaluation go through both expressions in step, while what the list
pairs has the same type, or values that are alike.
-/

namespace TypedLambda

/-! ## Pairs of names -/

/-- The parameters under which two expressions are compared, innermost first. -/
abbrev Renaming : Type := List (String × String)

/--
Two names stand for the same binder, or for none and are the same. A binder hides its name from the
binders outside of it, on either side.
-/
def Renaming.Pairs : Renaming → String → String → Prop
  | [], x, y => x = y
  | (a, b) :: ρ, x, y => x = a ∧ y = b ∨ x ≠ a ∧ y ≠ b ∧ Pairs ρ x y

/-- Two expressions are the same but for the names of parameters, under the binders of a list. -/
inductive Expr.Alpha : Renaming → Expr → Expr → Prop
  | var {ρ : Renaming} {x y : String} : ρ.Pairs x y → Alpha ρ (.var x) (.var y)
  | lit {ρ : Renaming} (literal : Literal) : Alpha ρ (.lit literal) (.lit literal)
  | prim {ρ : Renaming} (op : Op) {lhs lhs' rhs rhs' : Expr} :
    Alpha ρ lhs lhs' → Alpha ρ rhs rhs' → Alpha ρ (.prim op lhs rhs) (.prim op lhs' rhs')
  | ite {ρ : Renaming} {condition condition' yes yes' no no' : Expr} :
    Alpha ρ condition condition' → Alpha ρ yes yes' → Alpha ρ no no' →
      Alpha ρ (.ite condition yes no) (.ite condition' yes' no')
  | app {ρ : Renaming} {function function' argument argument' : Expr} :
    Alpha ρ function function' → Alpha ρ argument argument' →
      Alpha ρ (.app function argument) (.app function' argument')
  | lam {ρ : Renaming} {x y : String} (type : Ty) {body body' : Expr} :
    Alpha ((x, y) :: ρ) body body' → Alpha ρ (.lam x type body) (.lam y type body')

/-- A binder of one name on both sides keeps names paired with themselves. -/
theorem Renaming.Pairs.cons {ρ : Renaming} (h : ∀ x, ρ.Pairs x x) (a x : String) :
    Renaming.Pairs ((a, a) :: ρ) x x := by
  by_cases hx : x = a
  · exact Or.inl ⟨hx, hx⟩
  · exact Or.inr ⟨hx, hx, h x⟩

theorem Expr.alpha_refl {ρ : Renaming} (h : ∀ x, ρ.Pairs x x) (e : Expr) : e.Alpha ρ e := by
  induction e generalizing ρ with
  | var x => exact .var (h x)
  | lit literal => exact .lit literal
  | prim op lhs rhs ihl ihr => exact .prim op (ihl h) (ihr h)
  | ite condition consequent alternative ihc ihy ihn => exact .ite (ihc h) (ihy h) (ihn h)
  | app function argument ihf iha => exact .app (ihf h) (iha h)
  | lam param type body ih => exact .lam type (ih (Renaming.Pairs.cons h param))

/-! ## Checking -/

/-- Paired names have the same type, and those without a type are the same. -/
def Context.Alpha (ρ : Renaming) (Γ Γ' : Context) : Prop :=
  ∀ x y, ρ.Pairs x y → Γ.lookup x = Γ'.lookup y ∧ (Γ.lookup x = none → x = y)

namespace Context.Alpha

variable {ρ : Renaming} {Γ Γ' : Context}

theorem refl (Γ : Context) : Context.Alpha [] Γ Γ := by
  rintro x _ rfl
  exact ⟨rfl, fun _ => rfl⟩

theorem extend (h : Context.Alpha ρ Γ Γ') (a b : String) (type : Ty) :
    Context.Alpha ((a, b) :: ρ) (Γ.extend a type) (Γ'.extend b type) := by
  intro x y hxy
  rw [lookup_extend, lookup_extend]
  rcases hxy with ⟨hx, hy⟩ | ⟨hx, hy, hxy⟩
  · rw [if_pos hx, if_pos hy]
    exact ⟨rfl, nofun⟩
  · rw [if_neg hx, if_neg hy]
    exact h x y hxy

end Context.Alpha

/-- **Expressions that are the same but for the names of parameters check alike.** -/
theorem Expr.Alpha.check_eq {ρ : Renaming} {e e' : Expr} (h : e.Alpha ρ e') {Γ Γ' : Context}
    (hΓ : Context.Alpha ρ Γ Γ') : e.check Γ = e'.check Γ' := by
  induction h generalizing Γ Γ' with
  | var hxy =>
    obtain ⟨hlookup, hfree⟩ := hΓ _ _ hxy
    rw [check, check, ← hlookup]
    split
    · rfl
    · next hnone => rw [hfree hnone]
  | lit literal => rfl
  | prim op _ _ ihl ihr => rw [check, check, ihl hΓ, ihr hΓ]
  | ite _ _ _ ihc ihy ihn => rw [check, check, ihc hΓ, ihy hΓ, ihn hΓ]
  | app _ _ ihf iha => rw [check, check, ihf hΓ, iha hΓ]
  | lam type _ ih => rw [check, check, ih (hΓ.extend _ _ type)]

/-! ## Values -/

mutual

/-- The same literal, or closures that are the same but for the names of parameters. -/
inductive Value.Alpha : Value → Value → Prop
  | lit (literal : Literal) : Value.Alpha (.lit literal) (.lit literal)
  | closure {ρ : Renaming} {x y : String} {body body' : Expr} {scope scope' : Scope} :
    body.Alpha ((x, y) :: ρ) body' → Scope.Alpha ρ scope scope' →
      Value.Alpha (.closure x body scope) (.closure y body' scope')

/-- Two scopes resolve paired names alike. -/
inductive Scope.Alpha : Renaming → Scope → Scope → Prop
  | intro {ρ : Renaming} {scope scope' : Scope} :
    (∀ x y, ρ.Pairs x y → Binding.Alpha x y (scope.resolve x) (scope'.resolve y)) →
      Scope.Alpha ρ scope scope'

/-- Two names are both bound, to values that are alike, or both free and the same. -/
inductive Binding.Alpha : String → String → Option Value → Option Value → Prop
  | free (x : String) : Binding.Alpha x x none none
  | bound {x y : String} {value value' : Value} :
    Value.Alpha value value' → Binding.Alpha x y (some value) (some value')

end

/-- Paired names resolve to values that are alike, or are free on both sides. -/
theorem Scope.Alpha.resolve {ρ : Renaming} {scope scope' : Scope} (h : Scope.Alpha ρ scope scope')
    {x y : String} (hxy : ρ.Pairs x y) :
    Binding.Alpha x y (scope.resolve x) (scope'.resolve y) := by
  cases h with
  | intro h => exact h x y hxy

mutual

theorem Value.alpha_refl : (value : Value) → value.Alpha value
  | .lit literal => .lit literal
  | .closure param body scope =>
    .closure (Expr.alpha_refl (Renaming.Pairs.cons (ρ := []) (fun _ => rfl) param) body)
      (.intro fun x _ hxy => hxy ▸ Binding.alpha_refl scope x)

theorem Binding.alpha_refl : (scope : Scope) → (x : String) →
    Binding.Alpha x x (scope.resolve x) (scope.resolve x)
  | .empty, x => .free x
  | .bind outer name value, x => by
    rw [Scope.resolve]
    split
    · exact .bound (Value.alpha_refl value)
    · exact Binding.alpha_refl outer x

end

namespace Scope.Alpha

variable {ρ : Renaming} {scope scope' : Scope}

theorem refl (scope : Scope) : Scope.Alpha [] scope scope := by
  refine .intro ?_
  rintro x _ rfl
  exact Binding.alpha_refl scope x

/-- Scopes stay alike when paired parameters get values that are alike. -/
theorem bind (h : Scope.Alpha ρ scope scope') (a b : String) {value value' : Value}
    (hv : value.Alpha value') :
    Scope.Alpha ((a, b) :: ρ) (scope.bind a value) (scope'.bind b value') := by
  refine .intro fun x y hxy => ?_
  rw [Scope.resolve, Scope.resolve]
  rcases hxy with ⟨rfl, rfl⟩ | ⟨hx, hy, hxy⟩
  · rw [if_pos rfl, if_pos rfl]
    exact .bound hv
  · rw [if_neg hx.symm, if_neg hy.symm]
    exact h.resolve hxy

end Scope.Alpha

/-! ## Evaluation -/

/-- Expressions that are the same but for the names of parameters are evaluated in step. -/
theorem simulation_alpha :
    Simulation Value.Alpha fun scope e scope' e' =>
      ∃ ρ, e.Alpha ρ e' ∧ Scope.Alpha ρ scope scope' where
  literal := .lit
  value := by
    intro v v' h
    cases h with
    | lit literal => exact .lit literal
    | closure hbody hscope =>
      exact .closure fun value value' hvalue => ⟨_, hbody, hscope.bind _ _ hvalue⟩
  run := by
    rintro scope scope' e e' ⟨ρ, h, hs⟩
    cases h with
    | var hxy =>
      have hbinding := hs.resolve hxy
      generalize hx : scope.resolve _ = found, hy : scope'.resolve _ = found' at hbinding
      cases hbinding with
      | free x => exact .unbound hx hy
      | bound hv => exact .bound hx hy hv
    | lit literal => exact .lit literal
    | prim op hl hr => exact .prim op ⟨ρ, hl, hs⟩ ⟨ρ, hr, hs⟩
    | ite hc hyes hno => exact .ite ⟨ρ, hc, hs⟩ ⟨ρ, hyes, hs⟩ ⟨ρ, hno, hs⟩
    | app hf ha => exact .app ⟨ρ, hf, hs⟩ ⟨ρ, ha, hs⟩
    | lam type hbody => exact .lam (.closure hbody hs)

/--
**Expressions that are the same but for the names of parameters return alike**, in scopes that
resolve paired names alike.
-/
theorem Expr.Alpha.returnAlike {ρ : Renaming} {e e' : Expr} (h : e.Alpha ρ e')
    {scope scope' : Scope} (hs : Scope.Alpha ρ scope scope') :
    ReturnAlike Value.Alpha scope e scope' e' :=
  simulation_alpha.returnAlike ⟨ρ, h, hs⟩

/--
**Names of parameters do not matter.** Expressions that are the same but for them have the same type
or the same type error in every context. In every scope both are evaluated to an end or neither is,
and then to the same failure, the same literal, or closures that are the same but for the names of
parameters.
-/
theorem check_and_eval_respect_renaming {e e' : Expr} (h : e.Alpha [] e') :
    (∀ Γ, e.check Γ = e'.check Γ) ∧
      ∀ scope, (e.Returns scope ↔ e'.Returns scope) ∧
        ∀ depth depth' r r', e.eval depth scope = some r → e'.eval depth' scope = some r' →
          Outcome.Related Value.Alpha (some r) (some r') := by
  refine ⟨fun Γ => h.check_eq (.refl Γ), fun scope => ?_⟩
  have halike := h.returnAlike (.refl scope)
  exact ⟨halike.returns_iff, fun depth depth' r r' hr hr' => halike.results hr hr'⟩

/-- The names of two parameters are exchanged; a third name is free. -/
theorem check_and_eval_respect_renaming_exchanged :
    Expr.Alpha []
        (.app (.lam "x" .int (.lam "y" .int (.prim .add (.var "x") (.var "z")))) (.lit (.int 1)))
        (.app (.lam "y" .int (.lam "x" .int (.prim .add (.var "y") (.var "z")))) (.lit (.int 1))) ∧
      Expr.check .empty (.app (.lam "y" .int (.lam "x" .int (.prim .add (.var "y") (.var "z"))))
        (.lit (.int 1))) = .error (.notInScope "z") ∧
      Outcome.Related Value.Alpha
        (some (.ok (.closure "y" (.prim .add (.var "x") (.var "z"))
          (.bind .empty "x" (.lit (.int 1))))))
        (some (.ok (.closure "x" (.prim .add (.var "y") (.var "z"))
          (.bind .empty "y" (.lit (.int 1)))))) := by
  have halpha : Expr.Alpha []
      (.app (.lam "x" .int (.lam "y" .int (.prim .add (.var "x") (.var "z")))) (.lit (.int 1)))
      (.app (.lam "y" .int (.lam "x" .int (.prim .add (.var "y") (.var "z"))))
        (.lit (.int 1))) := by
    refine .app (.lam _ (.lam _ (.prim _ (.var ?_) (.var ?_)))) (.lit _)
    · exact Or.inr ⟨by decide, by decide, Or.inl ⟨rfl, rfl⟩⟩
    · exact Or.inr ⟨by decide, by decide, Or.inr ⟨by decide, by decide, rfl⟩⟩
  obtain ⟨hcheck, heval⟩ := check_and_eval_respect_renaming halpha
  exact ⟨halpha, (hcheck .empty).symm.trans rfl, (heval .empty).2 2 2 _ _ rfl rfl⟩

end TypedLambda
