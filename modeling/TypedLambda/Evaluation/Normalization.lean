import TypedLambda.Evaluation.Depth
import TypedLambda.Typing.Judgement

/-!
# Checked expressions have values

A type is read as a set of values: integers, booleans, and for an arrow the closures that turn every
value of the source into a value of the target. An expression with a type, in a scope whose values
have the types of the context, is evaluated to a value of its type.

**Main statement:** `HasType.exists_eval`, by induction on the judgement. A checked closed
expression therefore returns (`Expr.returns_of_check`), which is what makes the interpreter total.
-/

namespace TypedLambda

/-- The values of a type. -/
def Ty.Holds : Ty → Value → Prop
  | int, v => ∃ n, v = .lit (.int n)
  | bool, v => ∃ b, v = .lit (.bool b)
  | arrow source target, v => ∃ param body scope, v = .closure param body scope ∧
    ∀ a, source.Holds a →
      ∃ depth b, Expr.eval depth (scope.bind param a) body = some (.ok b) ∧ target.Holds b

/-- Every name of the context is bound in the scope to a value of its type. -/
def Scope.Models (scope : Scope) (Γ : Context) : Prop :=
  ∀ name type, Γ.lookup name = some type →
    ∃ value, scope.resolve name = some value ∧ type.Holds value

theorem Scope.models_empty (scope : Scope) : scope.Models .empty := by
  intro name type h
  simp at h

/-- A scope stays a model when a parameter is bound to a value of its type. -/
theorem Scope.Models.bind {scope : Scope} {Γ : Context} (h : scope.Models Γ) {name : String}
    {type : Ty} {value : Value} (hv : type.Holds value) :
    (scope.bind name value).Models (Γ.extend name type) := by
  intro y t hy
  rw [Context.lookup_extend] at hy
  unfold Scope.resolve
  by_cases hxy : y = name
  · rw [if_pos hxy] at hy
    cases hy
    exact ⟨value, by rw [if_pos hxy.symm], hv⟩
  · rw [if_neg hxy] at hy
    rw [if_neg fun heq => hxy heq.symm]
    exact h y t hy

namespace Expr

variable {scope : Scope}

/-- Two outcomes reached within some depth are reached within one depth. -/
theorem eval_both {e e' : Expr} {scope' : Scope} {r r' : Except RuntimeError Value} {d d' : Nat}
    (h : eval d scope e = some r) (h' : eval d' scope' e' = some r') :
    eval (max d d') scope e = some r ∧ eval (max d d') scope' e' = some r' :=
  ⟨eval_mono h (Nat.le_max_left d d'), eval_mono h' (Nat.le_max_right d d')⟩

theorem exists_eval_prim (op : Op) {lhs rhs : Expr} {left right : Value} {d d' : Nat}
    (hl : eval d scope lhs = some (.ok left)) (hr : eval d' scope rhs = some (.ok right)) :
    ∃ depth, eval depth scope (prim op lhs rhs) = some (op.apply left right) := by
  obtain ⟨h, h'⟩ := eval_both hl hr
  exact ⟨max d d' + 1, by simp [eval, h, h', Outcome.andThen]⟩

/-- A conditional needs a depth that is enough for both branches, though it takes one. -/
theorem exists_eval_ite {condition consequent alternative : Expr} {b : Bool} {yes no : Value}
    {d d' d'' : Nat} (hc : eval d scope condition = some (.ok (.lit (.bool b))))
    (hy : eval d' scope consequent = some (.ok yes))
    (hn : eval d'' scope alternative = some (.ok no)) :
    ∃ depth, eval depth scope (ite condition consequent alternative)
      = some (.ok (if b then yes else no)) := by
  obtain ⟨hy, hn⟩ := eval_both hy hn
  have hc' := eval_mono hc (Nat.le_max_left d (max d' d''))
  have hy' := eval_mono hy (Nat.le_max_right d (max d' d''))
  have hn' := eval_mono hn (Nat.le_max_right d (max d' d''))
  refine ⟨max d (max d' d'') + 1, ?_⟩
  cases b <;> simp [eval, hc', hy', hn', Outcome.andThen, Value.pick]

/-- A call needs a depth that is enough for its two parts and the body of the closure. -/
theorem exists_eval_app {function argument body : Expr} {param : String} {outer : Scope}
    {value result : Value} {d d' d'' : Nat}
    (hf : eval d scope function = some (.ok (.closure param body outer)))
    (ha : eval d' scope argument = some (.ok value))
    (hb : eval d'' (outer.bind param value) body = some (.ok result)) :
    ∃ depth, eval depth scope (app function argument) = some (.ok result) := by
  obtain ⟨ha, hb⟩ := eval_both ha hb
  have hf' := eval_mono hf (Nat.le_max_left d (max d' d''))
  have ha' := eval_mono ha (Nat.le_max_right d (max d' d''))
  have hb' := eval_mono hb (Nat.le_max_right d (max d' d''))
  exact ⟨max d (max d' d'') + 1, by simp [eval, hf', ha', hb', Outcome.andThen]⟩

end Expr

/-- **An expression with a type is evaluated to a value of that type.** -/
theorem HasType.exists_eval {Γ : Context} {e : Expr} {type : Ty} (h : HasType Γ e type) :
    ∀ {scope : Scope}, scope.Models Γ →
      ∃ depth value, e.eval depth scope = some (.ok value) ∧ type.Holds value := by
  induction h with
  | @var Γ name type h =>
    intro scope hs
    obtain ⟨value, hv, ht⟩ := hs name type h
    exact ⟨1, value, by simp [Expr.eval, hv], ht⟩
  | @int Γ n => exact fun _ => ⟨1, _, rfl, n, rfl⟩
  | @bool Γ b => exact fun _ => ⟨1, _, rfl, b, rfl⟩
  | @arithmetic Γ op lhs rhs hop _ _ ihl ihr =>
    intro scope hs
    obtain ⟨_, _, hl, a, rfl⟩ := ihl hs
    obtain ⟨_, _, hr, b, rfl⟩ := ihr hs
    obtain ⟨depth, hd⟩ := Expr.exists_eval_prim op hl hr
    rcases hop with rfl | rfl
    · exact ⟨depth, _, hd, a + b, rfl⟩
    · exact ⟨depth, _, hd, a * b, rfl⟩
  | @logic Γ op lhs rhs hop _ _ ihl ihr =>
    intro scope hs
    obtain ⟨_, _, hl, a, rfl⟩ := ihl hs
    obtain ⟨_, _, hr, b, rfl⟩ := ihr hs
    obtain ⟨depth, hd⟩ := Expr.exists_eval_prim op hl hr
    rcases hop with rfl | rfl
    · exact ⟨depth, _, hd, a && b, rfl⟩
    · exact ⟨depth, _, hd, a || b, rfl⟩
  | @order Γ op lhs rhs hop _ _ ihl ihr =>
    intro scope hs
    obtain ⟨_, _, hl, a, rfl⟩ := ihl hs
    obtain ⟨_, _, hr, b, rfl⟩ := ihr hs
    obtain ⟨depth, hd⟩ := Expr.exists_eval_prim op hl hr
    rcases hop with rfl | rfl
    · exact ⟨depth, _, hd, _, rfl⟩
    · exact ⟨depth, _, hd, _, rfl⟩
  | @equality Γ lhs rhs type ht _ _ ihl ihr =>
    intro scope hs
    rcases ht with rfl | rfl
    · obtain ⟨_, _, hl, a, rfl⟩ := ihl hs
      obtain ⟨_, _, hr, b, rfl⟩ := ihr hs
      obtain ⟨depth, hd⟩ := Expr.exists_eval_prim .equal hl hr
      exact ⟨depth, _, hd, _, rfl⟩
    · obtain ⟨_, _, hl, a, rfl⟩ := ihl hs
      obtain ⟨_, _, hr, b, rfl⟩ := ihr hs
      obtain ⟨depth, hd⟩ := Expr.exists_eval_prim .equal hl hr
      exact ⟨depth, _, hd, _, rfl⟩
  | ite _ _ _ ihc iht ihe =>
    intro scope hs
    obtain ⟨_, _, hc, b, rfl⟩ := ihc hs
    obtain ⟨_, yes, hy, hty⟩ := iht hs
    obtain ⟨_, no, hn, htn⟩ := ihe hs
    obtain ⟨depth, hd⟩ := Expr.exists_eval_ite hc hy hn
    refine ⟨depth, _, hd, ?_⟩
    cases b
    · exact htn
    · exact hty
  | app _ _ ihf iha =>
    intro scope hs
    obtain ⟨_, _, hf, param, body, outer, rfl, hbody⟩ := ihf hs
    obtain ⟨_, value, ha, hv⟩ := iha hs
    obtain ⟨_, result, hb, hr⟩ := hbody value hv
    obtain ⟨depth, hd⟩ := Expr.exists_eval_app hf ha hb
    exact ⟨depth, result, hd, hr⟩
  | @lam Γ param source target body _ ih =>
    intro scope hs
    exact ⟨1, _, rfl, param, body, scope, rfl, fun a ha => ih (hs.bind ha)⟩

/-- A checked closed expression has an outcome. -/
theorem Expr.returns_of_check {e : Expr} {type : Ty} (h : e.check .empty = .ok type) :
    e.Returns .empty := by
  obtain ⟨depth, value, hd, -⟩ :=
    (HasType.hasType_of_check h).exists_eval (Scope.models_empty .empty)
  exact ⟨depth, by simp [hd]⟩

end TypedLambda
