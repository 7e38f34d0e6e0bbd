import TypedLambda.Proofs.Evaluation.Simulation
import TypedLambda.Proofs.Expressions

/-!
# Types are erased at run time

The type at the parameter of a function is kept in the bodies of closures, and through closures it
gets into scopes and results, but evaluation never looks at it. So an expression goes in step with
the one without types, in the scope without types (`simulation_bare`). Two evaluations that differ
in types only are both in step with one and the same evaluation without types, whether they return a
value, fail or go on for ever.
-/

namespace TypedLambda

/-! ## Without types -/

mutual

/-- The value with one and the same type at every parameter, inside captured scopes as well. -/
def Value.bare : Value → Value
  | .lit literal => .lit literal
  | .closure param body scope => .closure param body.bare scope.bare

/-- The scope with the same names in the same order, and values without types. -/
def Scope.bare : Scope → Scope
  | .empty => .empty
  | .bind outer name value => .bind outer.bare name value.bare

end

/-- A name is bound to the same value but for types, or to none. -/
theorem Scope.resolve_bare (scope : Scope) (x : String) :
    scope.bare.resolve x = (scope.resolve x).map Value.bare := by
  match scope with
  | .empty => rfl
  | .bind outer name value =>
    rw [Scope.bare, resolve, resolve]
    by_cases hname : name = x
    · rw [if_pos hname, if_pos hname]
      rfl
    · rw [if_neg hname, if_neg hname]
      exact resolve_bare outer x

/-- The same expression but for the types at parameters, at any depth. -/
def Expr.SameButTypes (e e' : Expr) : Prop := e.bare = e'.bare

/-- The same value but for types in the bodies of closures and in the scopes that they capture. -/
def Value.SameButTypes (v v' : Value) : Prop := v.bare = v'.bare

/-- The same names in the same order, bound to values that are the same but for types. -/
def Scope.SameButTypes (scope scope' : Scope) : Prop := scope.bare = scope'.bare

/-! ## Evaluation without types -/

/-- An expression goes in step with the one without types. -/
theorem simulation_bare :
    Simulation (fun v v' => v.bare = v')
      fun scope e scope' e' => scope.bare = scope' ∧ e.bare = e' where
  literal := fun literal => by rw [Value.bare]
  value := by
    rintro v _ rfl
    cases v with
    | lit literal =>
      rw [Value.bare]
      exact .lit literal
    | closure param body scope =>
      rw [Value.bare]
      refine .closure ?_
      rintro value _ rfl
      exact ⟨rfl, rfl⟩
  run := by
    rintro scope _ e _ ⟨rfl, rfl⟩
    cases e with
    | var name =>
      cases hx : scope.resolve name with
      | none => exact .unbound hx (by rw [Scope.resolve_bare, hx]; rfl)
      | some value => exact .bound hx (by rw [Scope.resolve_bare, hx]; rfl) rfl
    | lit literal => exact .lit literal
    | prim op lhs rhs => exact .prim op ⟨rfl, rfl⟩ ⟨rfl, rfl⟩
    | ite condition consequent alternative => exact .ite ⟨rfl, rfl⟩ ⟨rfl, rfl⟩ ⟨rfl, rfl⟩
    | app function argument => exact .app ⟨rfl, rfl⟩ ⟨rfl, rfl⟩
    | lam param type body => exact .lam (by rw [Value.bare])

/--
**Types are erased at run time.** Expressions that differ in the types at parameters only, in scopes
that do, both return or neither does, and then with the same failure or with values that differ in
types only. Such values have one kind and one text.
-/
theorem types_are_erased_at_run_time {scope scope' : Scope} {e e' : Expr}
    (hscope : scope.SameButTypes scope') (he : e.SameButTypes e') :
    ReturnAlike Value.SameButTypes scope e scope' e' ∧
      ∀ v v' : Value, v.SameButTypes v' → v.kind = v'.kind ∧ v.text = v'.text := by
  constructor
  · refine .of_eval fun depth => ?_
    have hleft : Outcome.Related _ (e.eval depth scope) (e'.bare.eval depth scope'.bare) :=
      simulation_bare.eval ⟨hscope, he⟩ depth
    have hright : Outcome.Related _ (e'.eval depth scope') (e'.bare.eval depth scope'.bare) :=
      simulation_bare.eval ⟨rfl, rfl⟩ depth
    exact hleft.meet hright fun v v' w hv hv' => hv.trans hv'.symm
  · intro v v' h
    have hleft : Value.Matches _ _ v v'.bare := simulation_bare.value h
    have hright : Value.Matches _ _ v' v'.bare := simulation_bare.value rfl
    exact ⟨hleft.kind_eq.trans hright.kind_eq.symm, hleft.text_eq.trans hright.text_eq.symm⟩

/-- A call that returns a function, in whose body and scope there are functions again. -/
def capturing (type : Ty) : Expr :=
  .app (.lam "g" type (.lam "y" type
      (.app (.var "g") (.lam "u" type (.app (.var "f") (.var "y"))))))
    (.lam "z" type (.var "z"))

/-- A scope with a function that calls another one. -/
def callingScope (type : Ty) : Scope :=
  .ofList [("f", .closure "n" (.app (.lam "k" type (.var "k")) (.var "n")) .empty)]

/-- The function returned, with all that it captures. -/
def captured (type : Ty) : Value :=
  .closure "y" (.app (.var "g") (.lam "u" type (.app (.var "f") (.var "y"))))
    ((callingScope type).bind "g" (.closure "z" (.var "z") (callingScope type)))

/-- Annotations differ inside a captured scope and below a binder, and all else is the same. -/
theorem types_are_erased_at_run_time_captured :
    (callingScope .int).SameButTypes (callingScope (.arrow .bool .int)) ∧
      (capturing .int).SameButTypes (capturing (.arrow .bool .int)) ∧
      Outcome.Related Value.SameButTypes (some (.ok (captured .int)))
        (some (.ok (captured (.arrow .bool .int)))) := by
  have hscope : (callingScope .int).SameButTypes (callingScope (.arrow .bool .int)) := rfl
  have he : (capturing .int).SameButTypes (capturing (.arrow .bool .int)) := rfl
  exact ⟨hscope, he, (types_are_erased_at_run_time hscope he).1.results
    (rfl : (capturing .int).eval 3 (callingScope .int) = some _)
    (rfl : (capturing (.arrow .bool .int)).eval 3 (callingScope (.arrow .bool .int)) = some _)⟩

end TypedLambda
