import TypedLambda.Evaluation.Depth

/-!
# Two evaluations side by side

Two evaluations, each of an expression in a scope of its own, are compared one level at a time. A
simulation says which evaluations and which values are related: related expressions have the same
form and related parts, and closures that are related, called with related arguments, go on with
related evaluations.

**Main statement.** Related evaluations have related outcomes at every depth (`Simulation.eval`), so
that both return or neither does (`Simulation.returnAlike`). The recursion through the bodies of
closures is gone through here; what is left to a use of it looks at one level only.
-/

namespace TypedLambda

/-! ## Outcomes -/

/-- No outcome on either side, the same failure, or values that are related. -/
inductive Outcome.Related (R : Value → Value → Prop) : Outcome → Outcome → Prop
  | none : Related R none none
  | error (e : RuntimeError) : Related R (some (.error e)) (some (.error e))
  | value {v v' : Value} : R v v' → Related R (some (.ok v)) (some (.ok v'))

namespace Outcome.Related

variable {R : Value → Value → Prop} {o o' : Outcome}

theorem none_or_some (h : Outcome.Related R o o') :
    o = .none ∧ o' = .none ∨ ∃ r r', o = some r ∧ o' = some r' := by
  cases h with
  | none => exact Or.inl ⟨rfl, rfl⟩
  | error e => exact Or.inr ⟨_, _, rfl, rfl⟩
  | value hv => exact Or.inr ⟨_, _, rfl, rfl⟩

theorem eq_error {e : RuntimeError} (h : Outcome.Related R (some (.error e)) o') :
    o' = some (.error e) := by
  cases h
  rfl

/-- Sequences are related if what follows is, for related values. -/
theorem andThen (h : Outcome.Related R o o') {f f' : Value → Outcome}
    (hf : ∀ v v', R v v' → Outcome.Related R (f v) (f' v')) :
    Outcome.Related R (o.andThen f) (o'.andThen f') := by
  cases h with
  | none => exact .none
  | error e => exact .error e
  | value hv => exact hf _ _ hv

/-- Two outcomes that are related to one and the same third. -/
theorem meet {Q : Value → Value → Prop} {p : Outcome} (h : Outcome.Related R o p)
    (h' : Outcome.Related R o' p) (hQ : ∀ v v' w, R v w → R v' w → Q v v') :
    Outcome.Related Q o o' := by
  cases h with
  | none =>
    cases h'
    exact .none
  | error e =>
    cases h'
    exact .error e
  | value hv =>
    cases h' with
    | value hv' => exact .value (hQ _ _ _ hv hv')

end Outcome.Related

/-! ## One level -/

section

variable (R : Value → Value → Prop) (Runs : Scope → Expr → Scope → Expr → Prop)

/-- The same literal, or closures that go on with related evaluations for related arguments. -/
inductive Value.Matches : Value → Value → Prop
  | lit (literal : Literal) : Matches (.lit literal) (.lit literal)
  | closure {x y : String} {body body' : Expr} {scope scope' : Scope}
    (h : ∀ v v', R v v' → Runs (scope.bind x v) body (scope'.bind y v') body') :
    Matches (.closure x body scope) (.closure y body' scope')

/-- Expressions of one form whose parts are related, each in its scope. -/
inductive Expr.Matches (scope scope' : Scope) : Expr → Expr → Prop
  | bound {x y : String} {v v' : Value} (hx : scope.resolve x = some v)
    (hy : scope'.resolve y = some v') (h : R v v') : Matches scope scope' (.var x) (.var y)
  /-- One name that neither scope binds. -/
  | unbound {x : String} (hx : scope.resolve x = none) (hx' : scope'.resolve x = none) :
    Matches scope scope' (.var x) (.var x)
  | lit (literal : Literal) : Matches scope scope' (.lit literal) (.lit literal)
  | prim (op : Op) {lhs lhs' rhs rhs' : Expr} (hl : Runs scope lhs scope' lhs')
    (hr : Runs scope rhs scope' rhs') : Matches scope scope' (.prim op lhs rhs) (.prim op lhs' rhs')
  | ite {condition condition' yes yes' no no' : Expr} (hc : Runs scope condition scope' condition')
    (hy : Runs scope yes scope' yes') (hn : Runs scope no scope' no') :
    Matches scope scope' (.ite condition yes no) (.ite condition' yes' no')
  | app {function function' argument argument' : Expr} (hf : Runs scope function scope' function')
    (ha : Runs scope argument scope' argument') :
    Matches scope scope' (.app function argument) (.app function' argument')
  | lam {x y : String} {type type' : Ty} {body body' : Expr}
    (h : R (.closure x body scope) (.closure y body' scope')) :
    Matches scope scope' (.lam x type body) (.lam y type' body')

/-- Related values and related evaluations match, one level at a time. -/
structure Simulation : Prop where
  literal : ∀ literal, R (.lit literal) (.lit literal)
  value : ∀ {v v' : Value}, R v v' → Value.Matches R Runs v v'
  run : ∀ {scope scope' : Scope} {e e' : Expr}, Runs scope e scope' e' →
    Expr.Matches R Runs scope scope' e e'

end

namespace Value.Matches

variable {R : Value → Value → Prop} {Runs : Scope → Expr → Scope → Expr → Prop}
  {v v' w w' : Value}

theorem kind_eq (h : Matches R Runs v v') : v.kind = v'.kind := by
  cases h <;> rfl

theorem text_eq (h : Matches R Runs v v') : v.text = v'.text := by
  cases h <;> rfl

/-- An operator looks at literals and kinds only. -/
theorem apply_eq (hv : Matches R Runs v v') (hw : Matches R Runs w w') (op : Op) :
    op.apply v w = op.apply v' w' := by
  cases hv with
  | lit a =>
    cases hw with
    | lit b => rfl
    | closure => cases op <;> cases a <;> rfl
  | closure =>
    cases hw with
    | lit b => cases op <;> rfl
    | closure => cases op <;> rfl

/-- A condition looks at literals and kinds only. -/
theorem pick (h : Matches R Runs v v') {yes yes' no no' : Outcome}
    (hy : Outcome.Related R yes yes') (hn : Outcome.Related R no no') :
    Outcome.Related R (v.pick yes no) (v'.pick yes' no') := by
  obtain ⟨rfl, rfl⟩ | ⟨r, r', rfl, rfl⟩ := hy.none_or_some
  · exact .none
  obtain ⟨rfl, rfl⟩ | ⟨s, s', rfl, rfl⟩ := hn.none_or_some
  · exact .none
  cases h with
  | lit literal =>
    match literal with
    | .int _ => exact .error _
    | .bool true => exact hy
    | .bool false => exact hn
  | closure => exact .error _

end Value.Matches

/-! ## All levels -/

namespace Simulation

variable {R : Value → Value → Prop} {Runs : Scope → Expr → Scope → Expr → Prop}
  (hS : Simulation R Runs)
include hS

/-- Operators give related outcomes for related operands, since they look at literals only. -/
theorem apply (op : Op) {v v' w w' : Value} (hv : R v v') (hw : R w w') :
    Outcome.Related R (some (op.apply v w)) (some (op.apply v' w')) := by
  rw [(hS.value hv).apply_eq (hS.value hw) op]
  have hanswer := op.answer_apply v' w'
  generalize op.apply v' w' = answer at hanswer
  cases hanswer with
  | literal literal => exact .value (hS.literal literal)
  | failure => exact .error _

/-- **Related evaluations have related outcomes**, at every depth. -/
theorem eval {scope scope' : Scope} {e e' : Expr} (h : Runs scope e scope' e') (depth : Nat) :
    Outcome.Related R (e.eval depth scope) (e'.eval depth scope') := by
  -- by the depth and not by the expressions: a call goes on with the bodies of closures
  induction depth generalizing scope scope' e e' with
  | zero => exact .none
  | succ depth ih =>
    cases hS.run h with
    | bound hx hy hv =>
      rw [Expr.eval, Expr.eval, hx, hy]
      exact .value hv
    | unbound hx hx' =>
      rw [Expr.eval, Expr.eval, hx, hx']
      exact .error _
    | lit literal => exact .value (hS.literal literal)
    | prim op hl hr =>
      exact (ih hl).andThen fun left left' hleft =>
        (ih hr).andThen fun right right' hright => hS.apply op hleft hright
    | ite hc hy hn =>
      exact (ih hc).andThen fun test test' htest => (hS.value htest).pick (ih hy) (ih hn)
    | app hf ha =>
      refine (ih hf).andThen fun callee callee' hcallee =>
        (ih ha).andThen fun value value' hvalue => ?_
      cases hS.value hcallee with
      | lit literal => exact .error _
      | closure hbody => exact ih (hbody value value' hvalue)
    | lam hclosure => exact .value hclosure

end Simulation

/-- Both evaluations return or neither does, and then with the same failure or related values. -/
structure ReturnAlike (R : Value → Value → Prop) (scope : Scope) (e : Expr) (scope' : Scope)
    (e' : Expr) : Prop where
  returns_iff : e.Returns scope ↔ e'.Returns scope'
  results : ∀ {depth depth' : Nat} {r r' : Except RuntimeError Value},
    e.eval depth scope = some r → e'.eval depth' scope' = some r' →
      Outcome.Related R (some r) (some r')

/-- Outcomes that are related at every depth are related once they are there. -/
theorem ReturnAlike.of_eval {R : Value → Value → Prop} {scope scope' : Scope} {e e' : Expr}
    (h : ∀ depth, Outcome.Related R (e.eval depth scope) (e'.eval depth scope')) :
    ReturnAlike R scope e scope' e' where
  returns_iff := by
    have hsome : ∀ depth, (e.eval depth scope).isSome = (e'.eval depth scope').isSome := by
      intro depth
      rcases (h depth).none_or_some with ⟨hnone, hnone'⟩ | ⟨r, r', hr, hr'⟩
      · rw [hnone, hnone']
      · rw [hr, hr']
        rfl
    simp only [Expr.Returns, hsome]
  results := by
    intro depth depth' r r' hr hr'
    have hrelated := h (max depth depth')
    rwa [Expr.eval_mono hr (Nat.le_max_left ..), Expr.eval_mono hr' (Nat.le_max_right ..)]
      at hrelated

/-- **Related evaluations return alike.** -/
theorem Simulation.returnAlike {R : Value → Value → Prop}
    {Runs : Scope → Expr → Scope → Expr → Prop} (hS : Simulation R Runs) {scope scope' : Scope}
    {e e' : Expr} (h : Runs scope e scope' e') : ReturnAlike R scope e scope' e' :=
  .of_eval (hS.eval h)

end TypedLambda
