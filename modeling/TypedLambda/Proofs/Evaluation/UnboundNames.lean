import TypedLambda.Proofs.Evaluation.FreeVariables

/-!
# Names that evaluation finds unbound

A name that evaluation reports as undefined is free in the expression and not bound by the scope,
however ill typed the expression is, as long as the closures in the scope are closed. The report may
come late, from the body of a closure that was made elsewhere, so it is not enough to look at the
expression: what is kept along an evaluation is a bound on all names that could be missed later.
These are the free variables of closures that the scopes of the closures leave unbound.

With no names at all as the bound, the same invariant says that evaluation makes closed values of
closed values.
-/

namespace TypedLambda

/-! ## What scopes cover and what they lack -/

/-- The scope binds every free variable of the expression. -/
def Scope.Covers (scope : Scope) (e : Expr) : Prop :=
  ∀ x ∈ e.freeVars, (scope.resolve x).isSome

/-- The name is free in the expression and the scope does not bind it. -/
def Scope.Lacks (scope : Scope) (e : Expr) (x : String) : Prop :=
  x ∈ e.freeVars ∧ scope.resolve x = none

namespace Scope

variable {scope : Scope} {e : Expr} {x : String}

theorem Lacks.of_part {part : Expr} (h : scope.Lacks part x) (hp : part.freeVars ⊆ e.freeVars) :
    scope.Lacks e x :=
  ⟨hp h.1, h.2⟩

/-- What a body lacks when its parameter is bound, the function lacks before. -/
theorem Lacks.of_bind {param : String} {body : Expr} {value : Value}
    (h : (scope.bind param value).Lacks body x) (type : Ty) :
    scope.Lacks (.lam param type body) x := by
  obtain ⟨hmem, hnone⟩ := h
  rw [Scope.resolve] at hnone
  split at hnone
  · cases hnone
  · next hne => exact ⟨Expr.mem_freeVars_lam.mpr ⟨hmem, fun heq => hne heq.symm⟩, hnone⟩

/-- A scope that lacks nothing covers the expression. -/
theorem covers_iff : scope.Covers e ↔ ∀ x, ¬scope.Lacks e x := by
  constructor
  · rintro h x ⟨hmem, hnone⟩
    have hbound := h x hmem
    rw [hnone] at hbound
    cases hbound
  · intro h x hx
    exact Option.isSome_iff_ne_none.mpr fun hnone => h x ⟨hx, hnone⟩

theorem Covers.part {part : Expr} (h : scope.Covers e) (hp : part.freeVars ⊆ e.freeVars) :
    scope.Covers part :=
  fun x hx => h x (hp hx)

/-- The body of a function is covered once the parameter is bound. -/
theorem Covers.bind {param : String} {type : Ty} {body : Expr}
    (h : scope.Covers (.lam param type body)) (value : Value) :
    (scope.bind param value).Covers body :=
  covers_iff.mpr fun x hx => covers_iff.mp h x (hx.of_bind type)

end Scope

mutual

/-- The scope of every closure in the value binds what the closure needs. -/
def Value.Closed : Value → Prop
  | .lit _ => True
  | .closure param body scope => scope.Closed ∧ scope.Covers (.lam param .int body)

/-- Every value of the scope is closed. -/
def Scope.Closed : Scope → Prop
  | .empty => True
  | .bind outer _ value => outer.Closed ∧ value.Closed

end

/-! ## A bound on the names that values lack -/

mutual

/-- What the closures in the value need and their scopes do not bind are names with a property. -/
def Value.LacksOnly (P : String → Prop) : Value → Prop
  | .lit _ => True
  | .closure param body scope =>
    scope.LacksOnly P ∧ ∀ x, scope.Lacks (.lam param .int body) x → P x

/-- Every value of the scope lacks only names with a property. -/
def Scope.LacksOnly (P : String → Prop) : Scope → Prop
  | .empty => True
  | .bind outer _ value => outer.LacksOnly P ∧ value.LacksOnly P

end

variable {P : String → Prop}

mutual

/-- A closed value lacks nothing. -/
theorem Value.Closed.lacksOnly : {value : Value} → value.Closed → value.LacksOnly P
  | .lit _, _ => trivial
  | .closure _ _ _, ⟨hs, hcovers⟩ =>
    ⟨Scope.Closed.lacksOnly hs, fun x hx => absurd hx (Scope.covers_iff.mp hcovers x)⟩

theorem Scope.Closed.lacksOnly : {scope : Scope} → scope.Closed → scope.LacksOnly P
  | .empty, _ => trivial
  | .bind _ _ _, ⟨ho, hv⟩ => ⟨Scope.Closed.lacksOnly ho, Value.Closed.lacksOnly hv⟩

end

mutual

/-- A value that lacks nothing is closed. -/
theorem Value.closed_of_lacksOnly :
    {value : Value} → value.LacksOnly (fun _ => False) → value.Closed
  | .lit _, _ => trivial
  | .closure _ _ _, ⟨hs, hlacks⟩ =>
    ⟨Scope.closed_of_lacksOnly hs, Scope.covers_iff.mpr hlacks⟩

theorem Scope.closed_of_lacksOnly :
    {scope : Scope} → scope.LacksOnly (fun _ => False) → scope.Closed
  | .empty, _ => trivial
  | .bind _ _ _, ⟨ho, hv⟩ => ⟨Scope.closed_of_lacksOnly ho, Value.closed_of_lacksOnly hv⟩

end

theorem Scope.LacksOnly.resolve {scope : Scope} (h : scope.LacksOnly P) {x : String}
    {value : Value} (hx : scope.resolve x = some value) : value.LacksOnly P := by
  induction scope with
  | empty => cases hx
  | bind outer name bound ih =>
    rw [Scope.resolve] at hx
    split at hx
    · cases hx
      exact h.2
    · exact ih h.1 hx

/-! ## What evaluation keeps -/

/-- The value lacks only names with a property, and a name that is reported has it. -/
def Outcome.LacksOnly (P : String → Prop) : Outcome → Prop
  | some (.ok value) => value.LacksOnly P
  | some (.error (.undefined name)) => P name
  | _ => True

namespace Outcome.LacksOnly

theorem andThen {o : Outcome} {f : Value → Outcome} (h : o.LacksOnly P)
    (hf : ∀ v : Value, v.LacksOnly P → (f v).LacksOnly P) : (o.andThen f).LacksOnly P := by
  match o, h with
  | none, _ => trivial
  | some (.error _), h => exact h
  | some (.ok v), h => exact hf v h

theorem pick (test : Value) {yes no : Outcome} (hy : yes.LacksOnly P) (hn : no.LacksOnly P) :
    (test.pick yes no).LacksOnly P := by
  unfold Value.pick
  split
  · split
    · exact hy
    · exact hn
    · trivial
  · trivial

/-- Operators give literals and report no names. -/
theorem apply (op : Op) (left right : Value) :
    Outcome.LacksOnly P (some (op.apply left right)) := by
  have hanswer := op.answer_apply left right
  generalize op.apply left right = answer at hanswer
  cases hanswer with
  | literal literal => trivial
  | @failure error hne =>
    cases error with
    | undefined name => exact absurd rfl (hne name)
    | _ => trivial

end Outcome.LacksOnly

/--
**Evaluation misses no name beyond those that are missing at its start**, in the expression or in
the values of the scope.
-/
theorem Expr.eval_lacksOnly {scope : Scope} {e : Expr} (hs : scope.LacksOnly P)
    (he : ∀ x, scope.Lacks e x → P x) (depth : Nat) :
    Outcome.LacksOnly P (e.eval depth scope) := by
  -- by the depth: the body of a closure is evaluated in the scope of the closure
  induction depth generalizing scope e with
  | zero => trivial
  | succ depth ih =>
    cases e with
    | var name =>
      rw [eval]
      split
      · next value hvalue => exact hs.resolve hvalue
      · next hnone => exact he name ⟨List.mem_singleton.mpr rfl, hnone⟩
    | lit literal => trivial
    | prim op lhs rhs =>
      have hl := ih hs fun x hx => he x (hx.of_part (List.subset_append_left _ _))
      have hr := ih hs fun x hx => he x (hx.of_part (List.subset_append_right _ _))
      exact hl.andThen fun left _ => hr.andThen fun right _ => .apply op left right
    | ite condition consequent alternative =>
      have hc := ih hs fun x hx => he x (hx.of_part (freeVars_condition_subset ..))
      have hy := ih hs fun x hx => he x (hx.of_part (freeVars_consequent_subset ..))
      have hn := ih hs fun x hx => he x (hx.of_part (freeVars_alternative_subset ..))
      exact hc.andThen fun test _ => .pick test hy hn
    | app function argument =>
      have hf := ih hs fun x hx => he x (hx.of_part (List.subset_append_left _ _))
      have ha := ih hs fun x hx => he x (hx.of_part (List.subset_append_right _ _))
      refine hf.andThen fun callee hcallee => ha.andThen fun value hvalue => ?_
      cases callee with
      | lit literal => trivial
      | closure param body outer =>
        obtain ⟨houter, hlacks⟩ := hcallee
        exact ih ⟨houter, hvalue⟩ fun x hx => hlacks x (hx.of_bind .int)
    | lam param type body => exact ⟨hs, he⟩

/-- Evaluation makes closed values of closed values. -/
theorem Expr.eval_closed {scope : Scope} {e : Expr} {depth : Nat} {value : Value}
    (hs : scope.Closed) (hc : scope.Covers e) (h : e.eval depth scope = some (.ok value)) :
    value.Closed := by
  have hlacks := e.eval_lacksOnly (P := fun _ => False) hs.lacksOnly (Scope.covers_iff.mp hc) depth
  rw [h] at hlacks
  exact Value.closed_of_lacksOnly hlacks

/-! ## Reports -/

theorem head?_toList_append {s : String} {c : Char} (h : s.toList.head? = some c) (t : String) :
    (s ++ t).toList.head? = some c := by
  rw [String.toList_append, List.head?_append, h]
  rfl

/-- Only an undefined variable is reported as one: other wordings begin with another letter. -/
theorem RuntimeError.eq_undefined_of_message {error : RuntimeError} {x : String}
    (h : error.message = "undefined variable: " ++ x) : error = .undefined x := by
  have hfirst : ∀ c, c ≠ 'u' → error.message.toList.head? ≠ some c := by
    intro c hc hother
    have hu : ("undefined variable: " ++ x).toList.head? = some 'u' :=
      head?_toList_append (by decide) x
    rw [h, hu] at hother
    exact hc (Option.some.inj hother).symm
  cases error with
  | undefined name => exact congrArg undefined ((String.append_right_inj _).mp h)
  | operand op expected found =>
    refine absurd ?_ (hfirst 'o' (by decide))
    exact head?_toList_append (head?_toList_append (head?_toList_append (head?_toList_append
      (head?_toList_append (by decide) _) _) _) _) _
  | incomparable left right =>
    refine absurd ?_ (hfirst 'c' (by decide))
    exact head?_toList_append (head?_toList_append (head?_toList_append (by decide) _) _) _
  | condition found =>
    exact absurd (head?_toList_append (by decide) _) (hfirst 'i' (by decide))
  | notFunction found =>
    exact absurd (head?_toList_append (by decide) _) (hfirst 'c' (by decide))

/-- A report of an undefined variable names what is missing at the start. -/
theorem Expr.lacks_of_eval {scope : Scope} {e : Expr} {depth : Nat} {error : RuntimeError}
    {x : String} (hs : scope.Closed) (h : e.eval depth scope = some (.error error))
    (hmessage : error.message = "undefined variable: " ++ x) : scope.Lacks e x := by
  obtain rfl := RuntimeError.eq_undefined_of_message hmessage
  have hlacks := e.eval_lacksOnly hs.lacksOnly (fun x hx => hx) depth
  rwa [h] at hlacks

/-- A closed expression fails in every scope as it fails in the empty one. -/
theorem Expr.Closed.eval_empty {e : Expr} (he : e.Closed) {scope : Scope} {depth : Nat}
    {error : RuntimeError} (h : e.eval depth scope = some (.error error)) :
    e.eval depth .empty = some (.error error) := by
  have hagree : Scope.AgreeOn e scope .empty := fun x hx => absurd hx he.not_mem
  have hrelated := simulation_alike.eval ⟨rfl, hagree⟩ depth
  rw [h] at hrelated
  exact hrelated.eq_error

/--
**A name that is reported as undefined is free and unbound.** In a scope of closed values evaluation
reports only free variables of the expression that the scope does not bind, and if the scope binds
them all the value is closed. A closed expression never fails with an undefined variable, however
ill typed it is and whatever the scope holds.
-/
theorem undefined_names_are_unbound (scope : Scope) (e : Expr) (depth : Nat) :
    (scope.Closed → ∀ error x, e.eval depth scope = some (.error error) →
      error.message = "undefined variable: " ++ x → x ∈ e.freeVars ∧ scope.resolve x = none) ∧
    (scope.Closed → scope.Covers e → ∀ value, e.eval depth scope = some (.ok value) →
      value.Closed) ∧
    (e.Closed → ∀ error x, e.eval depth scope = some (.error error) →
      error.message ≠ "undefined variable: " ++ x) := by
  refine ⟨fun hs error x h hmessage => Expr.lacks_of_eval hs h hmessage,
    fun hs hc value h => Expr.eval_closed hs hc h, fun he error x h hmessage => ?_⟩
  have hempty : Scope.empty.Closed := trivial
  exact he.not_mem (Expr.lacks_of_eval hempty (he.eval_empty h) hmessage).1

/-- A function that is passed to another one, and misses a name when it is called there. -/
def missing : Expr :=
  .app (.lam "g" .int (.app (.var "g") (.lit (.bool true))))
    (.lam "y" .int (.prim .add (.var "y") (.var "z")))

/-- A function that calls its argument with itself, applied to a number. -/
def misapplied : Expr := .app (.lam "x" .int (.app (.var "x") (.var "x"))) (.lit (.int 1))

theorem closed_plainScope : plainScope.Closed := by
  have hcovers : (Scope.ofList [("k", .lit (.int 1))]).Covers
      (.lam "n" .int (.prim .add (.var "n") (.var "k"))) := by
    intro x hx
    obtain rfl : x = "k" := by simpa [Expr.freeVars] using hx
    rfl
  exact ⟨⟨trivial, trivial⟩, ⟨trivial, trivial⟩, hcovers⟩

/-- A late report, a closure that is returned, and a closed expression that has no type. -/
theorem undefined_names_are_unbound_late :
    (missing.eval 4 plainScope = some (.error (.undefined "z")) ∧
      "z" ∈ missing.freeVars ∧ plainScope.resolve "z" = none) ∧
    (∃ value, escaping.eval 3 plainScope = some (.ok value) ∧ value.Closed) ∧
    ∃ error, misapplied.eval 3 plainScope = some (.error error) ∧
      ∀ x, error.message ≠ "undefined variable: " ++ x := by
  refine ⟨⟨rfl, ?_⟩, ⟨_, rfl, ?_⟩, ⟨_, rfl, fun x => ?_⟩⟩
  · exact (undefined_names_are_unbound plainScope missing 4).1 closed_plainScope
      (.undefined "z") "z" rfl rfl
  · have hcovers : plainScope.Covers escaping := by
      intro x hx
      obtain rfl | rfl : x = "f" ∨ x = "x" := by simpa [escaping, Expr.freeVars] using hx
      · rfl
      · rfl
    exact (undefined_names_are_unbound plainScope escaping 3).2.1 closed_plainScope hcovers _ rfl
  · exact (undefined_names_are_unbound plainScope misapplied 3).2.2 (by decide) _ x rfl

end TypedLambda
