import TypedLambda.Evaluation.Depth
import TypedLambda.Proofs.Evaluation.UnboundNames
import TypedLambda.Proofs.Substitution.Semantics

/-!
# Closures implement substitution

A value is read back as an expression: a closure as its function, with the values of its scope put
in for the variables that they are bound to. Evaluating an expression in a scope then does what
evaluation by substitution does with the expression into which the scope has been put.

The simulation is by induction on the depth of the evaluation. It needs that every value on the way
is closed (`Expr.eval_closed`), so that putting it into an expression never brings in a variable
that is bound there.
-/

namespace TypedLambda

/-! ## Reading back -/

mutual

/-- The expression of a value; a closure does not keep the type of its parameter. -/
def Value.readBack : Value → Expr
  | .lit literal => .lit literal
  | .closure param body scope => scope.put (.lam param .int body)

/-- Puts the values of a scope into an expression, from the innermost binding to the outermost. -/
def Scope.put : Scope → Expr → Expr
  | .empty, e => e
  | .bind outer name value, e => outer.put (e.subst name value.readBack)

end

mutual

/-- **A closed value is read back as a closed expression.** -/
theorem Value.Closed.readBack : {value : Value} → value.Closed → value.readBack.Closed
  | .lit _, _ => rfl
  | .closure _ _ _, ⟨hs, hcovers⟩ =>
    Expr.closed_of_not_mem fun x hx => Scope.covers_iff.mp hcovers x (Scope.Closed.mem_put hs hx)

/-- What is free after putting in a scope was free before and is not bound by the scope. -/
theorem Scope.Closed.mem_put : {scope : Scope} → scope.Closed → {e : Expr} → {x : String} →
    x ∈ (scope.put e).freeVars → x ∈ e.freeVars ∧ scope.resolve x = none
  | .empty, _, _, _, h => ⟨h, rfl⟩
  | .bind outer name value, ⟨ho, hv⟩, e, x, h => by
    obtain ⟨hmem, hnone⟩ := Scope.Closed.mem_put ho h
    obtain ⟨hmem, hne⟩ := Expr.mem_freeVars_subst (Value.Closed.readBack hv) hmem
    exact ⟨hmem, by rw [Scope.resolve, if_neg fun heq => hne heq.symm, hnone]⟩

end

namespace Scope

variable {scope : Scope} {x : String} {value : Value} {e : Expr}

/-! ## What putting in a scope does to each form of expression -/

/-- Types do not matter to putting the values of a scope into an expression. -/
theorem bare_put {e' : Expr} (h : e'.bare = e.bare) : (scope.put e').bare = (scope.put e).bare := by
  induction scope generalizing e e' with
  | empty => exact h
  | bind outer name value ih => exact ih (by rw [Expr.bare_subst, Expr.bare_subst, h])

theorem put_of_closed (h : e.Closed) : scope.put e = e := by
  induction scope with
  | empty => rfl
  | bind outer name value ih => rw [put, h.subst_eq, ih]

theorem put_lit (literal : Literal) : scope.put (.lit literal) = .lit literal :=
  put_of_closed rfl

/-- A name is replaced by its value, in which nothing is free. -/
theorem put_var (h : scope.Closed) (hx : scope.resolve x = some value) :
    scope.put (.var x) = value.readBack := by
  induction scope with
  | empty => cases hx
  | bind outer name bound ih =>
    rw [Scope.resolve] at hx
    rw [put, Expr.subst]
    by_cases hname : name = x
    · rw [if_pos hname] at hx
      cases hx
      rw [if_pos hname.symm, put_of_closed h.2.readBack]
    · rw [if_neg hname] at hx
      rw [if_neg fun heq => hname heq.symm, ih h.1 hx]

theorem put_prim (op : Op) (lhs rhs : Expr) :
    scope.put (.prim op lhs rhs) = .prim op (scope.put lhs) (scope.put rhs) := by
  induction scope generalizing lhs rhs with
  | empty => rfl
  | bind outer name value ih => rw [put, put, put, Expr.subst, ih]

theorem put_ite (condition consequent alternative : Expr) :
    scope.put (.ite condition consequent alternative)
      = .ite (scope.put condition) (scope.put consequent) (scope.put alternative) := by
  induction scope generalizing condition consequent alternative with
  | empty => rfl
  | bind outer name value ih => rw [put, put, put, put, Expr.subst, ih]

theorem put_app (function argument : Expr) :
    scope.put (.app function argument) = .app (scope.put function) (scope.put argument) := by
  induction scope generalizing function argument with
  | empty => rfl
  | bind outer name value ih => rw [put, put, put, Expr.subst, ih]

/--
**A call of a closure is a substitution.** Putting a scope into a function leaves a function of the
same parameter, and putting in the argument then is putting it in as the innermost binding.
-/
theorem put_lam (h : scope.Closed) (param : String) (type : Ty) (body : Expr) :
    ∃ body', scope.put (.lam param type body) = .lam param type body' ∧
      ∀ value : Value, value.Closed →
        body'.subst param value.readBack = (scope.bind param value).put body := by
  induction scope generalizing body with
  | empty => exact ⟨body, rfl, fun _ _ => rfl⟩
  | bind outer name bound ih =>
    rw [put, Expr.subst]
    by_cases hname : param = name
    · subst hname
      obtain ⟨body', heq, hcall⟩ := ih h.1 body
      refine ⟨body', by rw [if_pos rfl, heq], fun value hv => ?_⟩
      -- The inner binding of the parameter leaves nothing for the outer one to replace.
      have hgone : param ∉ (body.subst param value.readBack).freeVars := fun hmem =>
        (Expr.mem_freeVars_subst hv.readBack hmem).2 rfl
      rw [hcall value hv, put, put, put, Expr.subst_of_not_mem hgone]
    · obtain ⟨body', heq, hcall⟩ := ih h.1 (body.subst name bound.readBack)
      refine ⟨body', by rw [if_neg hname, heq], fun value hv => ?_⟩
      rw [hcall value hv, put, put, put,
        Expr.subst_comm (fun heq => hname heq.symm) h.2.readBack hv.readBack]

end Scope

/-! ## Operators -/

/-- An operator that succeeds does so on literals, and gives the literal that it should. -/
theorem Op.apply_eq_ok {op : Op} {left right value : Value} (h : op.apply left right = .ok value) :
    ∃ a b c, left = .lit a ∧ right = .lit b ∧ value = .lit c ∧ op.literal a b = some c := by
  cases left with
  | closure param body scope => cases op <;> cases h
  | lit a =>
    cases right with
    | closure param body scope => cases op <;> cases a <;> cases h
    | lit b =>
      refine ⟨a, b, ?_⟩
      cases op <;> cases a <;> cases b <;> cases h <;>
        exact ⟨_, rfl, rfl, rfl, by
          simp [Op.literal, wrap, Int64.lt_iff_toInt_lt, Int64.toInt_inj]⟩

/-! ## The simulation -/

theorem Outcome.andThen_eq_ok {o : Outcome} {f : Value → Outcome} {value : Value}
    (h : o.andThen f = some (.ok value)) : ∃ v, o = some (.ok v) ∧ f v = some (.ok value) := by
  rcases Outcome.andThen_eq_some h with ⟨e, -, hr⟩ | h
  · cases hr
  · exact h

/-- A conditional has a value if the condition is a boolean and the picked branch has it. -/
theorem Value.pick_eq_ok {test value : Value} {yes no : Outcome}
    (h : test.pick yes no = some (.ok value)) :
    ∃ b, test = .lit (.bool b) ∧ (if b then yes else no) = some (.ok value) := by
  unfold Value.pick at h
  split at h
  · split at h
    · exact ⟨true, rfl, h⟩
    · exact ⟨false, rfl, h⟩
    · cases h
  · cases h

/-- Evaluation by substitution gives the value, up to the types of parameters. -/
def Expr.Simulates (e : Expr) (value : Value) : Prop :=
  ∃ v, BigStep e v ∧ v.bare = value.readBack.bare

namespace Expr

variable {scope : Scope} {value : Value}

theorem Simulates.lit {e : Expr} {literal : Literal} (h : e.Simulates (.lit literal)) :
    BigStep e (.lit literal) := by
  obtain ⟨v, hv, heq⟩ := h
  rw [Expr.eq_lit_of_bare heq] at hv
  exact hv

/-- A value that is read back has itself for its value. -/
theorem simulates_readBack (hv : value.Closed) : value.readBack.Simulates value := by
  cases value with
  | lit literal => exact ⟨_, .lit, rfl⟩
  | closure param body scope =>
    obtain ⟨body', heq, -⟩ := Scope.put_lam hv.1 param .int body
    refine ⟨_, ?_, rfl⟩
    rw [Value.readBack, heq]
    exact .lam

/-- A call simulates the evaluation of the body of a closure in its scope. -/
theorem Simulates.app {function argument body : Expr} {param : String} {outer : Scope}
    {arg : Value} (ho : outer.Closed) (hv : arg.Closed)
    (hf : function.Simulates (.closure param body outer)) (ha : argument.Simulates arg)
    (hb : ((outer.bind param arg).put body).Simulates value) :
    (Expr.app function argument).Simulates value := by
  obtain ⟨f, hf, hfun⟩ := hf
  obtain ⟨a, ha, harg⟩ := ha
  obtain ⟨v, hb, hval⟩ := hb
  obtain ⟨body', heq, hcall⟩ := Scope.put_lam ho param .int body
  rw [Value.readBack, heq] at hfun
  obtain ⟨type', body'', rfl, hbody⟩ := Expr.exists_eq_lam_of_bare hfun
  have hsame : (body''.subst param a).bare = ((outer.bind param arg).put body).bare := by
    rw [bare_subst, hbody, harg, ← bare_subst, hcall arg hv]
  obtain ⟨v', hb', hval'⟩ := hb.of_bare_eq hsame
  exact ⟨v', .app hf ha hb', hval'.trans hval⟩

/--
**Evaluation in a scope simulates evaluation by substitution.** The induction is on the depth of the
evaluation, since a call goes on with the body of a closure, which is no part of the call.
-/
theorem simulates_of_eval {depth : Nat} {e : Expr} (hs : scope.Closed) (hc : scope.Covers e)
    (h : e.eval depth scope = some (.ok value)) : value.Closed ∧ (scope.put e).Simulates value := by
  refine ⟨eval_closed hs hc h, ?_⟩
  induction depth generalizing scope e value with
  | zero => cases h
  | succ depth ih =>
    have hv := eval_closed hs hc h
    cases e with
    | var name =>
      rw [eval] at h
      split at h
      · next found hfound =>
        cases h
        rw [Scope.put_var hs hfound]
        exact simulates_readBack hv
      · cases h
    | lit literal =>
      cases h
      rw [Scope.put_lit]
      exact ⟨_, .lit, rfl⟩
    | lam param type body =>
      cases h
      obtain ⟨body', heq, -⟩ := Scope.put_lam hs param type body
      refine ⟨scope.put (.lam param type body), ?_, Scope.bare_put rfl⟩
      rw [heq]
      exact .lam
    | prim op lhs rhs =>
      obtain ⟨left, hl, h⟩ := Outcome.andThen_eq_ok h
      obtain ⟨right, hr, h⟩ := Outcome.andThen_eq_ok h
      obtain ⟨a, b, c, rfl, rfl, rfl, hop⟩ := Op.apply_eq_ok (Option.some.inj h)
      have hlhs := ih hs (hc.part (List.subset_append_left _ _)) hl
      have hrhs := ih hs (hc.part (List.subset_append_right _ _)) hr
      rw [Scope.put_prim]
      exact ⟨_, .prim hlhs.lit hrhs.lit hop, rfl⟩
    | ite condition consequent alternative =>
      obtain ⟨test, ht, h⟩ := Outcome.andThen_eq_ok h
      obtain ⟨b, rfl, hb⟩ := Value.pick_eq_ok h
      have hcond := ih hs (hc.part (freeVars_condition_subset ..)) ht
      -- The branch that is not selected may fail or not; nothing is asked about it.
      have hpicked :
          (if b then scope.put consequent else scope.put alternative).Simulates value := by
        cases b with
        | true => exact ih hs (hc.part (freeVars_consequent_subset ..)) hb
        | false => exact ih hs (hc.part (freeVars_alternative_subset ..)) hb
      obtain ⟨v, hbranch, hval⟩ := hpicked
      rw [Scope.put_ite]
      exact ⟨v, .ite hcond.lit hbranch, hval⟩
    | app function argument =>
      obtain ⟨callee, hf, h⟩ := Outcome.andThen_eq_ok h
      obtain ⟨arg, ha, h⟩ := Outcome.andThen_eq_ok h
      have hcf := hc.part (List.subset_append_left _ _)
      have hca := hc.part (List.subset_append_right _ _)
      cases callee with
      | lit literal => cases h
      | closure param body outer =>
        obtain ⟨houter, hcovers⟩ := eval_closed hs hcf hf
        have harg := eval_closed hs hca ha
        have hinner : (outer.bind param arg).Closed := ⟨houter, harg⟩
        rw [Scope.put_app]
        exact (ih hs hcf hf).app houter harg (ih hs hca ha) (ih hinner (hcovers.bind arg) h)

end Expr

/--
**What a closed expression evaluates to is its value by substitution**, read back from the closures
and compared up to the types of parameters.
-/
theorem eval_closed_refines_substitution {e : Expr} {value : Value} {depth : Nat} (he : e.Closed)
    (h : e.eval depth .empty = some (.ok value)) :
    ∃ v, BigStep e v ∧ v.bare = value.readBack.bare ∧ ∀ w, BigStep e w → w = v := by
  have hclosed : Scope.empty.Closed := trivial
  have hcovers : Scope.empty.Covers e := fun x hx => absurd hx he.not_mem
  obtain ⟨-, v, hv, hbare⟩ := Expr.simulates_of_eval hclosed hcovers h
  exact ⟨v, hv, hbare, fun w hw => hw.unique hv⟩

/--
A function that is returned from a call whose argument is a closure. The name `x` is bound three
times: to forty in the scope of the argument, in the scope of the result, and by the result itself.
-/
def shadowing : Expr :=
  .app
    (.lam "x" .int
      (.app (.lam "f" (.arrow .int .int) (.lam "x" .bool (.app (.var "f") (.var "x"))))
        (.lam "y" .int (.prim .add (.var "x") (.var "y")))))
    (.lit (.int 40))

/-- Each occurrence of the name is replaced by the value of the binding that it belongs to. -/
theorem eval_closed_refines_substitution_shadowing :
    shadowing.Closed ∧ ∃ value, shadowing.eval 4 .empty = some (.ok value) ∧
      ∃ v, BigStep shadowing v ∧ v.bare = .lam "x" .int
        (.app (.lam "y" .int (.prim .add (.lit (.int 40)) (.var "y"))) (.var "x")) := by
  have hclosed : shadowing.Closed := by decide
  refine ⟨hclosed, _, rfl, ?_⟩
  obtain ⟨v, hv, hbare, -⟩ := eval_closed_refines_substitution hclosed
    (rfl : shadowing.eval 4 .empty = some (.ok _))
  exact ⟨v, hv, hbare⟩

end TypedLambda
