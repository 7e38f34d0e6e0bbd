import TypedLambda.Proofs.TypeSafety

/-!
# Evaluating both branches cannot be observed

A conditional evaluates both of its branches before the condition picks one. Here this is compared
with an evaluation that looks at the picked branch only. Whatever the first one returns, the second
one returns as well, within the same depth: what a discarded branch returns, a value or a failure,
is dropped with it. The converse fails, since a discarded branch may be evaluated for ever, but not
for an expression with a type: it is evaluated to an end in either way.
-/

namespace TypedLambda

/-! ## Evaluation of the picked branch only -/

/-- The outcome of the branch that a condition picks; the other one is not asked for. -/
def Value.choose (condition : Value) (consequent alternative : Unit → Outcome) : Outcome :=
  match condition with
  | .lit (.bool true) => consequent ()
  | .lit (.bool false) => alternative ()
  | other => some (.error (.condition other.kind))

/--
One level of the evaluation that looks at one branch, where `run` evaluates the parts and the bodies
of closures.
-/
def Expr.lazyLevel (run : Scope → Expr → Outcome) (scope : Scope) : Expr → Outcome
  | var name =>
    match scope.resolve name with
    | some value => some (.ok value)
    | none => some (.error (.undefined name))
  | lit literal => some (.ok (.lit literal))
  | prim op lhs rhs =>
    (run scope lhs).andThen fun left =>
      (run scope rhs).andThen fun right => some (op.apply left right)
  | ite condition consequent alternative =>
    (run scope condition).andThen fun test =>
      test.choose (fun _ => run scope consequent) fun _ => run scope alternative
  | app function argument =>
    (run scope function).andThen fun callee =>
      (run scope argument).andThen fun value =>
        match callee with
        | .closure param body outer => run (outer.bind param value) body
        | .lit literal => some (.error (.notFunction literal))
  | lam param _ body => some (.ok (.closure param body scope))

/--
The outcome of an expression when conditionals evaluate the picked branch only, and evaluations may
be nested to a depth.
-/
def Expr.evalLazily : (depth : Nat) → Scope → Expr → Outcome
  | 0, _, _ => none
  | depth + 1, scope, e => e.lazyLevel (Expr.evalLazily depth) scope

namespace Value

variable {condition : Value} {r : Except RuntimeError Value}

/-- The picked branch keeps the outcome of a conditional, whatever becomes of the other one. -/
theorem choose_mono {yes yes' no no' : Unit → Outcome}
    (hy : ∀ r, yes () = some r → yes' () = some r) (hn : ∀ r, no () = some r → no' () = some r)
    (h : condition.choose yes no = some r) : condition.choose yes' no' = some r := by
  unfold choose at h ⊢
  split at h
  · exact hy r h
  · exact hn r h
  · exact h

/-- A branch that is picked from two outcomes is chosen without the other one. -/
theorem choose_of_pick {yes no : Outcome} (h : condition.pick yes no = some r) :
    condition.choose (fun _ => yes) (fun _ => no) = some r := by
  unfold pick at h
  unfold choose
  split at h
  · exact h
  · cases h

end Value

namespace Expr

variable {scope : Scope} {e : Expr} {r : Except RuntimeError Value}

/-! ## One level -/

/-- A level differs from one of `Expr.eval` at conditionals only. -/
theorem lazyLevel_eval (depth : Nat)
    (h : ∀ condition consequent alternative, e ≠ ite condition consequent alternative) :
    e.lazyLevel (fun scope e => e.eval depth scope) scope = e.eval (depth + 1) scope := by
  cases e with
  | ite condition consequent alternative => exact absurd rfl (h condition consequent alternative)
  | _ => rfl

/-- An outcome of the evaluation of both branches is one when only one is looked at. -/
theorem lazyLevel_of_eval {depth : Nat} (h : e.eval (depth + 1) scope = some r) :
    e.lazyLevel (fun scope e => e.eval depth scope) scope = some r := by
  by_cases hite : ∃ condition consequent alternative, e = ite condition consequent alternative
  · obtain ⟨condition, consequent, alternative, rfl⟩ := hite
    exact Outcome.andThen_mono (fun _ htest => htest) (fun _ _ => Value.choose_of_pick) h
  · rw [lazyLevel_eval depth fun condition consequent alternative heq => hite ⟨_, _, _, heq⟩, h]

/-- A level keeps its outcome when those of the parts are kept. -/
theorem lazyLevel_mono {run run' : Scope → Expr → Outcome}
    (hrun : ∀ scope e r, run scope e = some r → run' scope e = some r)
    (h : e.lazyLevel run scope = some r) : e.lazyLevel run' scope = some r := by
  cases e with
  | var name => exact h
  | lit literal => exact h
  | lam param type body => exact h
  | prim op lhs rhs =>
    refine Outcome.andThen_mono (hrun scope lhs) (fun left r hr => ?_) h
    exact Outcome.andThen_mono (hrun scope rhs) (fun _ _ hright => hright) hr
  | ite condition consequent alternative =>
    refine Outcome.andThen_mono (hrun scope condition) (fun test r hr => ?_) h
    exact Value.choose_mono (hrun scope consequent) (hrun scope alternative) hr
  | app function argument =>
    refine Outcome.andThen_mono (hrun scope function) (fun callee r hr => ?_) h
    refine Outcome.andThen_mono (hrun scope argument) (fun value r hr => ?_) hr
    cases callee with
    | lit literal => exact hr
    | closure param body outer => exact hrun (outer.bind param value) body r hr

/-! ## All levels -/

/-- **What evaluation of both branches gives, evaluation of one gives within the same depth.** -/
theorem evalLazily_of_eval {depth : Nat} (h : e.eval depth scope = some r) :
    e.evalLazily depth scope = some r := by
  induction depth generalizing scope e r with
  | zero => cases h
  | succ depth ih => exact lazyLevel_mono (fun _ _ _ => ih) (lazyLevel_of_eval h)

theorem evalLazily_succ {depth : Nat} (h : e.evalLazily depth scope = some r) :
    e.evalLazily (depth + 1) scope = some r := by
  induction depth generalizing scope e r with
  | zero => cases h
  | succ depth ih => exact lazyLevel_mono (fun _ _ _ => ih) h

theorem evalLazily_mono {depth depth' : Nat} (h : e.evalLazily depth scope = some r)
    (hd : depth ≤ depth') : e.evalLazily depth' scope = some r := by
  induction hd with
  | refl => exact h
  | step _ ih => exact evalLazily_succ ih

/-- Some depth is enough for the result, and no depth gives anything else. -/
def LazilyGives (scope : Scope) (e : Expr) (r : Except RuntimeError Value) : Prop :=
  (∃ depth, e.evalLazily depth scope = some r) ∧
    ∀ depth r', e.evalLazily depth scope = some r' → r' = r

theorem lazilyGives_of_evalLazily {depth : Nat} (h : e.evalLazily depth scope = some r) :
    e.LazilyGives scope r := by
  refine ⟨⟨depth, h⟩, fun depth' r' h' => ?_⟩
  have hr := evalLazily_mono h (Nat.le_max_left depth depth')
  have hr' := evalLazily_mono h' (Nat.le_max_right depth depth')
  rw [hr] at hr'
  exact (Option.some.inj hr').symm

end Expr

/--
**Evaluating both branches cannot be observed.** What evaluation returns, a value or a failure, is
what the evaluation of picked branches returns, for every expression and scope. A closed expression
that the checker accepts has one and the same value in both.
-/
theorem eager_branches_unobservable :
    (∀ (e : Expr) (scope : Scope) (depth : Nat) (r : Except RuntimeError Value),
      e.eval depth scope = some r → e.LazilyGives scope r) ∧
    ∀ (e : Expr) (type : Ty), e.check .empty = .ok type →
      ∃ value, e.Evaluates .empty value ∧ e.LazilyGives .empty (.ok value) := by
  have hsame : ∀ (e : Expr) (scope : Scope) (depth : Nat) (r : Except RuntimeError Value),
      e.eval depth scope = some r → e.LazilyGives scope r :=
    fun e scope depth r h => Expr.lazilyGives_of_evalLazily (Expr.evalLazily_of_eval h)
  refine ⟨hsame, fun e type h => ?_⟩
  obtain ⟨value, -, hvalue⟩ := Expr.exists_evaluates_of_check (Scope.models_empty .empty) h
  obtain ⟨depth, hdepth⟩ := hvalue.1
  exact ⟨value, hvalue, hsame e .empty depth _ hdepth⟩

/--
A call whose discarded branches fail: in the body of the closure a name is missing, and in the
argument a number is called.
-/
def discarding : Expr :=
  .app (.lam "x" .int (.ite (.prim .less (.var "x") (.lit (.int 2))) (.var "x") (.var "y")))
    (.ite (.lit (.bool true)) (.lit (.int 1)) (.app (.lit (.int 0)) (.lit (.int 0))))

/-- A call that discards two calls of its argument and returns the argument. -/
def returning : Expr :=
  .app (.lam "f" (.arrow .int .int)
      (.ite (.lit (.bool false))
        (.lam "n" .int (.app (.var "f") (.app (.var "f") (.var "n")))) (.var "f")))
    (.lam "n" .int (.prim .add (.var "n") (.lit (.int 1))))

/-- An unchecked call whose discarded branches fail, and a checked one that gives a closure. -/
theorem eager_branches_unobservable_discarding :
    (discarding.eval 4 .empty = some (.ok (.lit (.int 1))) ∧
      discarding.LazilyGives .empty (.ok (.lit (.int 1)))) ∧
    returning.check .empty = .ok (.arrow .int .int) ∧
      ∃ value, returning.Evaluates .empty value ∧ returning.LazilyGives .empty (.ok value) :=
  ⟨⟨rfl, eager_branches_unobservable.1 discarding .empty 4 _ rfl⟩, rfl,
    eager_branches_unobservable.2 returning (.arrow .int .int) rfl⟩

/-! ## A discarded branch without end -/

/-- The call of a variable with itself. -/
def selfCall : Expr := .app (.var "x") (.var "x")

/-- The call of a function that calls its argument with itself. -/
def endless : Expr := .app (.lam "x" .int selfCall) (.lam "x" .int selfCall)

/-- Called with itself, a function that calls its argument with itself never comes to an end. -/
theorem eval_selfCall (depth : Nat) :
    selfCall.eval depth (.bind .empty "x" (.closure "x" selfCall .empty)) = none := by
  induction depth with
  | zero => rfl
  | succ depth ih =>
    cases depth with
    | zero => rfl
    | succ depth => exact ih

theorem eval_endless (depth : Nat) : endless.eval depth .empty = none := by
  match depth with
  | 0 => rfl
  | 1 => rfl
  | depth + 2 => exact eval_selfCall (depth + 1)

/-- **Evaluation of one branch may return where evaluation of both does not.** -/
theorem exists_lazilyGives_not_returns :
    ∃ (e : Expr) (r : Except RuntimeError Value), e.LazilyGives .empty r ∧ ¬e.Returns .empty := by
  refine ⟨.ite (.lit (.bool true)) (.lit (.int 1)) endless, .ok (.lit (.int 1)), ?_, ?_⟩
  · exact Expr.lazilyGives_of_evalLazily (rfl : Expr.evalLazily 2 _ _ = _)
  · rintro ⟨depth, h⟩
    match depth with
    | 0 => cases h
    | 1 => cases h
    | depth + 2 =>
      change ((Value.lit (.bool true)).pick _ (endless.eval (depth + 1) .empty)).isSome = true at h
      rw [eval_endless] at h
      cases h

end TypedLambda
