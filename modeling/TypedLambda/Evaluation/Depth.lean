import TypedLambda.Evaluation.Eval

/-!
# Depth is only a bound

An outcome that is reached within some depth is reached within every greater one, so an expression
has at most one outcome in a scope. An expression that has one can be evaluated without a bound:
`Expr.evaluate` doubles the depth until it is enough.

## Termination

`Expr.evaluateFrom` comes closer to a depth that is known to be enough with every turn.
-/

namespace TypedLambda

/-! ## More depth keeps the outcome -/

/--
A sequence ends with the failure of its first part, or with what the second makes of the value.
-/
theorem Outcome.andThen_eq_some {o : Outcome} {f : Value → Outcome} {r : Except RuntimeError Value}
    (h : o.andThen f = some r) :
    (∃ e, o = some (.error e) ∧ r = .error e) ∨ ∃ v, o = some (.ok v) ∧ f v = some r := by
  unfold Outcome.andThen at h
  split at h
  · simp at h
  · next e => exact Or.inl ⟨e, rfl, (Option.some.inj h).symm⟩
  · next v => exact Or.inr ⟨v, rfl, h⟩

/-- An outcome that goes on from another is kept when both are. -/
theorem Outcome.andThen_mono {o o' : Outcome} {f f' : Value → Outcome}
    (ho : ∀ r, o = some r → o' = some r) (hf : ∀ v r, f v = some r → f' v = some r)
    {r : Except RuntimeError Value} (h : o.andThen f = some r) : o'.andThen f' = some r := by
  rcases Outcome.andThen_eq_some h with ⟨e, he, rfl⟩ | ⟨v, hv, hr⟩
  · simp [Outcome.andThen, ho _ he]
  · simp [Outcome.andThen, ho _ hv, hf v r hr]

theorem Value.pick_mono {condition : Value} {yes no yes' no' : Outcome}
    (hy : ∀ r, yes = some r → yes' = some r) (hn : ∀ r, no = some r → no' = some r)
    {r : Except RuntimeError Value} (h : condition.pick yes no = some r) :
    condition.pick yes' no' = some r := by
  unfold Value.pick at h
  split at h
  · rw [hy _ rfl, hn _ rfl]
    exact h
  · simp at h

namespace Expr

/-- One more level of nesting keeps the outcome. -/
theorem eval_succ : ∀ {depth : Nat} {scope : Scope} {e : Expr} {r : Except RuntimeError Value},
    eval depth scope e = some r → eval (depth + 1) scope e = some r
  | 0, _, _, _, h => by simp [eval] at h
  | _ + 1, _, var _, _, h => h
  | _ + 1, _, lit _, _, h => h
  | _ + 1, _, lam _ _ _, _, h => h
  | _ + 1, _, prim _ _ _, _, h =>
    Outcome.andThen_mono (fun _ => eval_succ)
      (fun _ _ => Outcome.andThen_mono (fun _ => eval_succ) fun _ _ hv => hv) h
  | _ + 1, _, ite _ _ _, _, h =>
    Outcome.andThen_mono (fun _ => eval_succ)
      (fun _ _ => Value.pick_mono (fun _ => eval_succ) fun _ => eval_succ) h
  | depth + 1, _, app _ _, _, h => by
    refine Outcome.andThen_mono (fun _ => eval_succ)
      (fun callee _ => Outcome.andThen_mono (fun _ => eval_succ) fun value r hr => ?_) h
    cases callee with
    | closure param body outer => exact eval_succ hr
    | lit literal => exact hr

/-- **More depth keeps the outcome.** -/
theorem eval_mono {depth depth' : Nat} {scope : Scope} {e : Expr} {r : Except RuntimeError Value}
    (h : eval depth scope e = some r) (hd : depth ≤ depth') : eval depth' scope e = some r := by
  induction hd with
  | refl => exact h
  | step _ ih => exact eval_succ ih

/-- **An expression has at most one outcome in a scope.** -/
theorem eval_unique {depth depth' : Nat} {scope : Scope} {e : Expr}
    {r r' : Except RuntimeError Value} (h : eval depth scope e = some r)
    (h' : eval depth' scope e = some r') : r = r' := by
  have h₁ := eval_mono h (Nat.le_max_left depth depth')
  have h₂ := eval_mono h' (Nat.le_max_right depth depth')
  rw [h₁] at h₂
  exact Option.some.inj h₂

/-! ## Evaluation without a bound -/

/-- Some depth is enough for an outcome. -/
def Returns (scope : Scope) (e : Expr) : Prop := ∃ depth, (eval depth scope e).isSome = true

/-- The outcome of an expression that has one, looked for from a depth on. -/
def evaluateFrom (scope : Scope) (e : Expr) (h : Returns scope e) (depth : Nat) :
    Except RuntimeError Value :=
  match he : eval depth scope e with
  | some r => r
  | none => evaluateFrom scope e h (2 * depth + 1)
termination_by h.choose - depth
decreasing_by
  have hlt : depth < h.choose := by
    refine Nat.lt_of_not_le fun hle => ?_
    obtain ⟨r, hr⟩ := Option.isSome_iff_exists.mp h.choose_spec
    rw [eval_mono hr hle] at he
    simp at he
  omega

/-- The outcome of an expression that has one. -/
def evaluate (scope : Scope) (e : Expr) (h : Returns scope e) : Except RuntimeError Value :=
  evaluateFrom scope e h 1000

/-- The search for a depth that is enough finds the outcome of one. -/
theorem exists_eval_eq_evaluateFrom (scope : Scope) (e : Expr) (h : Returns scope e) (start : Nat) :
    ∃ depth, eval depth scope e = some (evaluateFrom scope e h start) := by
  fun_induction evaluateFrom scope e h start with
  | case1 depth r he => exact ⟨depth, he⟩
  | case2 depth he ih => exact ih

/-- **Evaluation without a bound gives the outcome that every sufficient depth gives.** -/
theorem evaluate_eq_iff {scope : Scope} {e : Expr} (h : Returns scope e)
    {r : Except RuntimeError Value} :
    evaluate scope e h = r ↔ ∃ depth, eval depth scope e = some r := by
  obtain ⟨depth, hd⟩ := exists_eval_eq_evaluateFrom scope e h 1000
  constructor
  · rintro rfl
    exact ⟨depth, hd⟩
  · rintro ⟨depth', hd'⟩
    exact eval_unique hd hd'

end Expr

end TypedLambda
